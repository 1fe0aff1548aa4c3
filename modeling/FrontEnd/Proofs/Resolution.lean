import FrontEnd.Proofs.Coherence.Runs
import FrontEnd.Proofs.Scopes.Refinement
import FrontEnd.Proofs.UnboundItems

/-! # What is in scope

The names in an item are given what is in scope for them, one after another, until one is met for
which nothing is. The scope of the item is closed again in either case. -/

namespace FrontEnd

/-- A name in a program, with the expression that it is. -/
structure NameNode where
  id : ExprId
  name : Name
  pos : Position
deriving DecidableEq

namespace CompilationUnit

variable {hash : Hasher} {u v w : CompilationUnit hash} {id : ExprId} {item : ItemId}
  {function : FunctionItem} {table : Bindings hash} {resolution : Resolution hash}

/-! ## The names in an item -/

/-- The expression itself, if it is a name. -/
def nameNode? (u : CompilationUnit hash) (id : ExprId) : Option NameNode :=
  match u.expr id with
  | ⟨.name name, pos⟩ => some ⟨id, name, pos⟩
  | _ => none

/-- An expression and those inside it, from the outermost on. -/
def nodesInside (u : CompilationUnit hash) (id : ExprId) : List ExprId :=
  match u.child? id with
  | none => [id]
  | some inner => if inner.index < id.index then id :: u.nodesInside inner else [id]
termination_by id.index

/-- The names in the signature of an item and then those in its body. -/
def namesIn (u : CompilationUnit hash) (function : FunctionItem) : List NameNode :=
  (u.nodesInside function.signature ++ u.nodesInside function.body).filterMap u.nameNode?

theorem nameNode?_eq_some_iff {node : NameNode} :
    u.nameNode? id = some node ↔ node.id = id ∧ u.Holds node.id (.name node.name) node.pos := by
  unfold nameNode?
  constructor
  · split
    · rename_i name pos hexpr
      rintro ⟨⟩
      refine ⟨rfl, ?_⟩
      by_cases hid : id.index < u.exprs.size
      · simpa only [hexpr] using holds_expr hid
      · have hnone := Array.getElem?_eq_none (Nat.le_of_not_lt hid)
        rw [expr, Array.getD_eq_getD_getElem?, hnone] at hexpr
        cases hexpr
    · rintro ⟨⟩
  · rintro ⟨rfl, hholds⟩
    rw [hholds.expr_eq]

theorem mem_nodesInside_iff (hdown : LeadsDown u.child?) {node : ExprId} :
    node ∈ u.nodesInside id ↔ ∃ outer, Trail u.child? node outer id := by
  fun_induction nodesInside u id with
  | case1 id hnone =>
      rw [List.mem_singleton]
      constructor
      · rintro rfl
        exact ⟨[], .stay _⟩
      · rintro ⟨outer, htrail⟩
        cases htrail.eq_or_exists with
        | inl heq => exact heq
        | inr hinner =>
            obtain ⟨inner, rest, hinner, -⟩ := hinner
            exact absurd (hnone.symm.trans hinner) (by simp)
  | case2 id inner hinner _ ih =>
      rw [List.mem_cons, ih]
      constructor
      · rintro (rfl | ⟨outer, htrail⟩)
        · exact ⟨[], .stay _⟩
        · exact ⟨_, htrail.trans (.out hinner (.stay id))⟩
      · rintro ⟨outer, htrail⟩
        apply htrail.eq_or_exists.imp_right
        rintro ⟨inner', rest, hinner', hrest⟩
        obtain rfl := Option.some.inj (hinner.symm.trans hinner')
        exact ⟨rest, hrest⟩
  | case3 id inner hinner hnot => exact absurd (hdown id inner hinner) hnot

/-- The names in an item are all names that its signature or its body leads to. -/
theorem mem_namesIn_iff (hdown : LeadsDown u.child?) {node : NameNode} :
    node ∈ u.namesIn function ↔
      u.PartOf function node.id ∧ u.Holds node.id (.name node.name) node.pos := by
  simp only [namesIn, List.mem_filterMap, List.mem_append, mem_nodesInside_iff hdown,
    nameNode?_eq_some_iff]
  constructor
  · rintro ⟨id, ⟨outer, htrail⟩ | ⟨outer, htrail⟩, rfl, hholds⟩
    · exact ⟨⟨_, outer, .inl rfl, htrail⟩, hholds⟩
    · exact ⟨⟨_, outer, .inr rfl, htrail⟩, hholds⟩
  · rintro ⟨⟨top, outer, rfl | rfl, htrail⟩, hholds⟩
    · exact ⟨node.id, .inl ⟨outer, htrail⟩, rfl, hholds⟩
    · exact ⟨node.id, .inr ⟨outer, htrail⟩, rfl, hholds⟩

theorem innermost_of_child? (hdown : LeadsDown u.child?) {inner : ExprId}
    (hinner : u.child? id = some inner) : u.innermost id = u.innermost inner := by
  obtain ⟨htrail, hnone⟩ := ExprId.descend_spec hdown (.stay inner)
  have hlast := htrail.trans (.out hinner (.stay id))
  rw [innermost, ExprId.descend_eq_of_trail hdown hlast hnone, innermost]

/-- Nothing is inside a name, so only the innermost expression can be one. -/
theorem filterMap_nodesInside (hdown : LeadsDown u.child?) :
    (u.nodesInside id).filterMap u.nameNode? = (u.nameNode? (u.innermost id)).toList := by
  fun_induction nodesInside u id with
  | case1 id hnone =>
      rw [innermost, ExprId.descend_of_none hnone]
      cases hnode : u.nameNode? id <;> simp [hnode]
  | case2 id inner hinner _ ih =>
      have hnode : u.nameNode? id = none := by
        rw [Option.eq_none_iff_forall_not_mem]
        intro node hnode
        obtain ⟨rfl, hholds⟩ := nameNode?_eq_some_iff.mp hnode
        exact absurd ((child?_of_holds hholds).symm.trans hinner) (by simp [Expr.child?])
      rw [List.filterMap_cons_none hnode, ih, innermost_of_child? hdown hinner]
  | case3 id inner hinner hnot => exact absurd (hdown id inner hinner) hnot

theorem namesIn_eq (hdown : LeadsDown u.child?) (function : FunctionItem) :
    u.namesIn function = (u.nameNode? (u.innermost function.signature)).toList ++
      (u.nameNode? (u.innermost function.body)).toList := by
  rw [namesIn, List.filterMap_append, filterMap_nodesInside hdown, filterMap_nodesInside hdown]

/-! ## What names are given -/

/-- Names are given what is in scope for them, from the first one on, up to one for which nothing
is. This one is reported, and it and those after it are given nothing. -/
structure NamesResolved (u v : CompilationUnit hash) (inScope : Name → Option DeclId)
    (names : List NameNode) (answer : Except BindingError Unit) : Prop where
  ok_iff : answer = .ok () ↔ ∀ node ∈ names, (inScope node.name).isSome
  referent : answer = .ok () → ∀ node ∈ names,
    (v.findingsOf node.id).referent = inScope node.name
  error : ∀ e, answer = .error e → ∃ before node after, names = before ++ node :: after ∧
    e = .unbound node.name node.pos ∧ inScope node.name = none ∧
    (∀ earlier ∈ before, (inScope earlier.name).isSome ∧
      (v.findingsOf earlier.id).referent = inScope earlier.name) ∧
    ∀ later ∈ node :: after, (v.findingsOf later.id).referent = none
  others : ∀ id, (∀ node ∈ names, node.id ≠ id) → v.findingsOf id = u.findingsOf id

namespace NamesResolved

variable {inScope : Name → Option DeclId} {names more : List NameNode}
  {answer : Except BindingError Unit} {e : BindingError}

theorem nil (u : CompilationUnit hash) (inScope : Name → Option DeclId) :
    u.NamesResolved u inScope [] (.ok ()) where
  ok_iff := by simp
  referent _ _ h := by cases h
  error _ h := by cases h
  others _ _ := rfl

/-- What the first names were given stays when others are resolved. -/
theorem referent_eq (hsecond : v.NamesResolved w inScope more answer)
    (hapart : ∀ node ∈ names, ∀ other ∈ more, other.id ≠ node.id) {node : NameNode}
    (hnode : node ∈ names) : (w.findingsOf node.id).referent = (v.findingsOf node.id).referent := by
  rw [hsecond.others node.id (hapart node hnode)]

theorem append (hfirst : u.NamesResolved v inScope names (.ok ()))
    (hsecond : v.NamesResolved w inScope more answer)
    (hapart : ∀ node ∈ names, ∀ other ∈ more, other.id ≠ node.id) :
    u.NamesResolved w inScope (names ++ more) answer where
  ok_iff := by
    rw [hsecond.ok_iff, List.forall_mem_append]
    exact (and_iff_right (hfirst.ok_iff.mp rfl)).symm
  referent hanswer := by
    refine List.forall_mem_append.mpr ⟨fun node hnode => ?_, hsecond.referent hanswer⟩
    rw [hsecond.referent_eq hapart hnode, hfirst.referent rfl node hnode]
  error e he := by
    obtain ⟨before, node, after, rfl, hanswer, hnode, hbefore, hafter⟩ := hsecond.error e he
    refine ⟨names ++ before, node, after, by simp, hanswer, hnode, ?_, hafter⟩
    refine List.forall_mem_append.mpr ⟨fun earlier hearlier => ?_, hbefore⟩
    rw [hsecond.referent_eq hapart hearlier, hfirst.referent rfl earlier hearlier]
    exact ⟨hfirst.ok_iff.mp rfl earlier hearlier, rfl⟩
  others id hid := by
    obtain ⟨hnames, hmore⟩ := List.forall_mem_append.mp hid
    rw [hsecond.others id hmore, hfirst.others id hnames]

/-- The names after one that is not in scope are not looked at. -/
theorem append_of_error (h : u.NamesResolved v inScope names (.error e))
    (hapart : ∀ node ∈ names, ∀ other ∈ more, other.id ≠ node.id)
    (hmore : ∀ node ∈ more, (u.findingsOf node.id).referent = none) :
    u.NamesResolved v inScope (names ++ more) (.error e) where
  ok_iff := by
    refine iff_of_false (by simp) fun hall => ?_
    exact absurd (h.ok_iff.mpr (List.forall_mem_append.mp hall).1) (by simp)
  referent hanswer := by cases hanswer
  error e' he := by
    obtain ⟨before, node, after, rfl, hanswer, hnode, hbefore, hafter⟩ := h.error e' he
    refine ⟨before, node, after ++ more, by simp, hanswer, hnode, hbefore, ?_⟩
    rw [← List.cons_append]
    refine List.forall_mem_append.mpr ⟨hafter, fun later hlater => ?_⟩
    rw [h.others later.id fun node hnode heq => hapart node hnode later hlater heq.symm]
    exact hmore later hlater
  others id hid := h.others id (List.forall_mem_append.mp hid).1

end NamesResolved

/-! ## Resolving the parts of an item -/

/-- The name inside an expression is given what is in scope for it. -/
theorem resolveName_namesResolved (hsize : u.findings.size = u.exprs.size)
    (hid : id.index < u.exprs.size) (hnone : ∀ node, u.nameNode? (u.innermost id) = some node →
      (u.findingsOf node.id).referent = none) (table : Bindings hash) :
    ∃ answer v, u.resolveName table id = .ok (answer, v) ∧
      u.NamesResolved v table.lookup (u.nameNode? (u.innermost id)).toList answer := by
  rw [resolveName, checkIndex_bind_of_lt hid]
  dsimp only
  generalize u.innermost id = leaf at hnone ⊢
  cases hnode : u.nameNode? leaf with
  | none =>
      refine ⟨.ok (), u, ?_, .nil u _⟩
      split
      · rename_i name pos hexpr
        simp [nameNode?, hexpr] at hnode
      · rfl
  | some node =>
      obtain ⟨rfl, hholds⟩ := nameNode?_eq_some_iff.mp hnode
      rw [hholds.expr_eq]
      dsimp only
      have hreferent := hnone node hnode
      cases hlookup : table.lookup node.name with
      | none =>
          refine ⟨_, u, rfl, ⟨by simp [hlookup], by rintro ⟨⟩, ?_, fun _ _ => rfl⟩⟩
          rintro e ⟨⟩
          exact ⟨[], node, [], rfl, rfl, hlookup, by simp, by simpa using hreferent⟩
      | some decl =>
          obtain ⟨recorded, hrecord⟩ :=
            exists_record .referent (hsize ▸ hholds.lt) hreferent decl
          have hfindings := (recorded_record hrecord).findingsOf_eq
          refine ⟨.ok (), recorded, Except.bind_eq_ok_iff.mpr ⟨recorded, hrecord, rfl⟩, ?_, ?_,
            by rintro e ⟨⟩, fun other hother => ?_⟩
          · simp [hlookup]
          · simp [hfindings, hlookup, Findings.put]
          · rw [hfindings, if_neg (Ne.symm (hother node (by simp)))]

theorem innermost_congr (hexprs : v.exprs = u.exprs) (id : ExprId) :
    v.innermost id = u.innermost id := by
  have hchild : v.child? = u.child? := by
    funext id
    simp only [child?, expr, hexprs]
  rw [innermost, hchild, innermost]

theorem nameNode?_congr (hexprs : v.exprs = u.exprs) (id : ExprId) :
    v.nameNode? id = u.nameNode? id := by
  simp only [nameNode?, expr, hexprs]

theorem namesIn_congr (hdown : LeadsDown u.child?) (hexprs : v.exprs = u.exprs)
    (function : FunctionItem) : v.namesIn function = u.namesIn function := by
  have hdown' : LeadsDown v.child? := by
    intro id inner hinner
    apply hdown id inner
    simpa only [child?, expr, hexprs] using hinner
  simp only [namesIn_eq hdown, namesIn_eq hdown', innermost_congr hexprs, nameNode?_congr hexprs]

/-- The names in an item refer to nothing, and no two of them are the same expression. -/
structure NamesFree (u : CompilationUnit hash) (function : FunctionItem) : Prop where
  referent : ∀ node ∈ u.namesIn function, (u.findingsOf node.id).referent = none
  nodup : ((u.namesIn function).map (·.id)).Nodup

instance (u : CompilationUnit hash) (function : FunctionItem) : Decidable (u.NamesFree function) :=
  decidable_of_iff _ ⟨fun h => NamesFree.mk h.1 h.2, fun h => And.intro h.referent h.nodup⟩

/-- The names in the signature are resolved and, if they are in scope, those in the body. -/
theorem NamesFree.resolveParts (hfree : u.NamesFree function) (hdown : LeadsDown u.child?)
    (hsize : u.findings.size = u.exprs.size) (hfits : u.ItemFits function) (table : Bindings hash) :
    ∃ answer v, u.resolveParts table function = .ok (answer, v) ∧
      u.NamesResolved v table.lookup (u.namesIn function) answer := by
  obtain ⟨hnone, hnodup⟩ := hfree
  rw [namesIn_eq hdown] at hnone hnodup ⊢
  obtain ⟨hsignature, hbody⟩ := List.forall_mem_append.mp hnone
  rw [List.map_append, List.nodup_append] at hnodup
  have hapart : ∀ node ∈ (u.nameNode? (u.innermost function.signature)).toList,
      ∀ other ∈ (u.nameNode? (u.innermost function.body)).toList, other.id ≠ node.id :=
    fun node hnode other hother =>
      (hnodup.2.2 _ (List.mem_map_of_mem hnode) _ (List.mem_map_of_mem hother)).symm
  have hfirstNone : ∀ node, u.nameNode? (u.innermost function.signature) = some node →
      (u.findingsOf node.id).referent = none :=
    fun node hnode => hsignature node (by simp [hnode])
  obtain ⟨answer, v, hfirst, hresolved⟩ :=
    resolveName_namesResolved hsize hfits.signature hfirstNone table
  simp only [CompilationUnit.resolveParts, hfirst]
  cases answer with
  | error e => exact ⟨_, v, rfl, hresolved.append_of_error hapart hbody⟩
  | ok done =>
      have hstripped := (resolveName_resolved hfirst).stripped_eq
      have hexprs := (referred_of_stripped hstripped).exprs_eq
      have hsize' : v.findings.size = v.exprs.size := by
        have hfindings := congrArg (fun u => u.findings.size) hstripped
        simp only [stripped, Array.size_map] at hfindings
        rw [hfindings, hexprs, hsize]
      have hsecondNone : ∀ node, v.nameNode? (v.innermost function.body) = some node →
          (v.findingsOf node.id).referent = none := by
        intro node hnode
        rw [innermost_congr hexprs, nameNode?_congr hexprs] at hnode
        have hmem : node ∈ (u.nameNode? (u.innermost function.body)).toList := by simp [hnode]
        rw [hresolved.others node.id fun earlier hearlier =>
          (hapart earlier hearlier node hmem).symm]
        exact hbody node hmem
      obtain ⟨answer, w, hsecond, hresolved'⟩ :=
        resolveName_namesResolved hsize' (hexprs ▸ hfits.body) hsecondNone table
      rw [innermost_congr hexprs, nameNode?_congr hexprs] at hresolved'
      exact ⟨answer, w, hsecond, hresolved.append hresolved' hapart⟩

/-! ## Resolving and binding an item -/

/-- The name of an item hides what it stands for outside. -/
def scopeWith (name : Name) (decl : DeclId) (table : Bindings hash) (other : Name) :
    Option DeclId :=
  if other = name then some decl else table.lookup other

theorem NamesFree.resolve (hfree : u.NamesFree function) (hdown : LeadsDown u.child?)
    (hsize : u.findings.size = u.exprs.size) (hfits : u.ItemFits function)
    (hitem : u.HoldsItem item function) {decl : DeclId}
    (hdecl : u.itemDeclaration? item = some decl) (htable : table.WellFormed) :
    ∃ resolution, u.resolve item table = .ok resolution ∧
      u.NamesResolved resolution.unit (scopeWith function.name decl table) (u.namesIn function)
        resolution.answer := by
  obtain ⟨inside, hinside, hinsideFormed, -, hopen, hlookup⟩ :=
    htable.push_insert function.name decl
  obtain ⟨outside, hpop, -⟩ := hinsideFormed.pop hopen
  obtain ⟨answer, v, hparts, hresolved⟩ := hfree.resolveParts hdown hsize hfits inside
  have hscope : inside.lookup = scopeWith function.name decl table := funext hlookup
  rw [hscope] at hresolved
  refine ⟨⟨answer, v, outside⟩, resolve_eq_ok_iff.mpr
    ⟨hitem.lt, decl, inside, hdecl, ?_, ?_, hpop⟩, hresolved⟩
  · rw [hitem.item_eq, hinside]
  · rw [hitem.item_eq, hparts]

/-- An item is declared once, and then its names are resolved in the scope of the prelude. -/
theorem NamesFree.bind (hfree : u.NamesFree function) (hu : u.Coherent)
    (hitem : u.HoldsItem item function) (hnew : u.itemDeclaration? item = none)
    {prelude : Prelude} (htable : Bindings.ofPrelude prelude = .ok table)
    (hwellFormed : table.WellFormed) :
    ∃ answer v, u.bind item prelude = .ok (answer, v) ∧
      v.declarations = u.declarations.push ⟨function.name, .function item⟩ ∧
      v.itemDeclaration? item = some ⟨u.declarations.size⟩ ∧
      u.NamesResolved v (scopeWith function.name ⟨u.declarations.size⟩ table)
        (u.namesIn function) answer := by
  have hplace : item.index < u.itemDeclarations.size := hu.hasPlaces ▸ hitem.lt
  have hfits := hu.itemsFit item function hitem
  obtain ⟨declared, hdeclared⟩ : ∃ declared, u.declareItem item = .ok declared :=
    ⟨_, declareItem_eq_ok_iff.mpr
      ⟨⟨hitem.lt, hplace, hnew, hitem.item_eq ▸ hfits.body⟩, rfl⟩⟩
  obtain ⟨-, heq⟩ := declareItem_eq_ok_iff.mp hdeclared
  have hexprs : declared.exprs = u.exprs := heq ▸ rfl
  have hdecl : declared.itemDeclaration? item = some ⟨u.declarations.size⟩ := by
    simp [heq, itemDeclaration?, Array.getD_eq_getD_getElem?, hplace]
  have hnames := namesIn_congr hu.exprsDescend hexprs function
  have hfindings : ∀ id, declared.findingsOf id = u.findingsOf id := fun _ => heq ▸ rfl
  have hdown : LeadsDown declared.child? := heq ▸ hu.exprsDescend
  have hfree' : declared.NamesFree function := by
    constructor
    · simpa only [hnames, hfindings] using hfree.referent
    · rw [hnames]
      exact hfree.nodup
  obtain ⟨resolution, hresolve, hresolved⟩ :=
    hfree'.resolve hdown (heq ▸ hu.findings_size)
      (hfits.grow (grown_declareItem hdeclared)) (heq ▸ hitem) hdecl hwellFormed
  have hafter := resolve_resolved hresolve
  refine ⟨resolution.answer, resolution.unit,
    bind_eq_ok_iff.mpr ⟨declared, table, resolution, hdeclared, htable, hresolve, rfl, rfl⟩,
    ?_, ?_, ?_⟩
  · rw [hafter.declarations_eq, heq, hitem.item_eq]
  · rw [itemDeclaration?, hafter.itemDeclarations_eq]
    exact hdecl
  · rw [hnames] at hresolved
    refine ⟨hresolved.ok_iff, hresolved.referent, hresolved.error, fun id hid => ?_⟩
    rw [hresolved.others id hid, hfindings]

/-- In a unit that operations have made, where no name of an item was resolved before: in every
table the names of the item, if it is declared, get what is in scope for them. If it is not
declared, binding makes one declaration for it, whether all names are in scope or not. -/
theorem names_resolved_in_scope {s : Session hash} (hs : Session.Operations (.new hash) s)
    (hitem : s.unit.HoldsItem item function) (hfree : s.unit.NamesFree function) :
    (∀ decl (table : Bindings hash), s.unit.itemDeclaration? item = some decl → table.Reached →
      ∃ resolution, s.unit.resolve item table = .ok resolution ∧
        s.unit.NamesResolved resolution.unit (scopeWith function.name decl table)
          (s.unit.namesIn function) resolution.answer) ∧
    ∀ prelude, s.unit.itemDeclaration? item = none → prelude = .empty ∨ prelude ∈ s.preludes →
      ∃ (table : Bindings hash) (answer : Except BindingError Unit) (v : CompilationUnit hash),
        Bindings.ofPrelude prelude = .ok table ∧ s.unit.bind item prelude = .ok (answer, v) ∧
        v.declarations = s.unit.declarations.push ⟨function.name, .function item⟩ ∧
        v.itemDeclaration? item = some ⟨s.unit.declarations.size⟩ ∧
        s.unit.NamesResolved v (scopeWith function.name ⟨s.unit.declarations.size⟩ table)
          (s.unit.namesIn function) answer := by
  have hs' := (Session.new_coherent.operations hs).1
  constructor
  · intro decl table hdecl htable
    exact hfree.resolve hs'.unit.exprsDescend hs'.unit.findings_size
      (hs'.unit.itemsFit item function hitem) hitem hdecl htable.wellFormed
  · intro prelude hnew hprelude
    obtain ⟨table, htable, hwellFormed⟩ := Prelude.FitsIn.exists_table (hs'.isStandard hprelude)
    obtain ⟨answer, v, hbind⟩ := hfree.bind hs'.unit hitem hnew htable hwellFormed
    exact ⟨table, answer, v, htable, hbind⟩

/-- The tokens of a function that returns itself and should return an integer. -/
def selfFunction : List Token :=
  [⟨.keyword .def_, .start, .none⟩, ⟨.identifier, .start, .ident ⟨1⟩⟩,
    ⟨.symbol .leftParen, .start, .none⟩, ⟨.symbol .rightParen, .start, .none⟩,
    ⟨.symbol .arrow, .start, .none⟩, ⟨.identifier, .start, .ident ⟨0⟩⟩,
    ⟨.symbol .leftBrace, .start, .none⟩, ⟨.keyword .return_, .start, .none⟩,
    ⟨.identifier, .start, .ident ⟨1⟩⟩, ⟨.symbol .rightBrace, .start, .none⟩, .endOfFile .start]

def selfUnit : CompilationUnit .constant := (twoNames.parse selfFunction).2

theorem selfUnit_operations :
    Session.Operations (.new .constant) ⟨selfUnit, [Prelude.initial], []⟩ :=
  Session.twoNames_operations.tail (.parse _ selfFunction (by decide +kernel))

/-- The unit in which that function is declared. -/
def declaredSelf : CompilationUnit .constant := ((selfUnit.declareItem ⟨0⟩).toOption).getD selfUnit

theorem declareItem_selfUnit : selfUnit.declareItem ⟨0⟩ = .ok declaredSelf := by
  obtain ⟨v, hv⟩ : ∃ v, selfUnit.declareItem ⟨0⟩ = .ok v :=
    ⟨_, declareItem_eq_ok_iff.mpr ⟨⟨by decide +kernel, by decide +kernel, by decide +kernel,
      by decide +kernel⟩, rfl⟩⟩
  rw [declaredSelf, hv]
  rfl

theorem declaredSelf_operations :
    Session.Operations (.new .constant) ⟨declaredSelf, [Prelude.initial], []⟩ :=
  selfUnit_operations.tail (.declareItem _ ⟨0⟩ _ (by decide +kernel) declareItem_selfUnit)

/-- A scope with the return type, in which another one was opened and closed. -/
def returnTypeScope : List (Scopes.Operation DeclId) :=
  [.push, .insert ⟨0⟩ ⟨0⟩, .push, .insert ⟨1⟩ ⟨1⟩, .pop]

open Scopes.Operation in
theorem exists_returnTypeScope : ∃ table : Bindings .constant, table.Reached ∧
    table.lookup ⟨0⟩ = some ⟨0⟩ ∧ table.lookup ⟨1⟩ = none ∧ table.depth = 1 := by
  have hmade : ((runWith onScopes (.empty : Bindings .constant) returnTypeScope).toOption.map
      fun made => (made.2.lookup ⟨0⟩, made.2.lookup ⟨1⟩, made.2.depth)) =
        some (some ⟨0⟩, none, 1) := by
    decide +kernel
  obtain ⟨⟨found, table⟩, hrun, hfacts⟩ := Option.map_eq_some_iff.mp hmade
  simp only [Prod.mk.injEq] at hfacts
  exact ⟨table, ⟨_, found, by decide, toOption_eq_some_iff.mp hrun⟩, hfacts⟩

/-- Against the empty prelude the return type is unbound. In a scope that has the return type, it
gets what it stands for there, and the function itself gets its own declaration. -/
theorem names_resolved_in_scope_selfUnit :
    (∃ v, selfUnit.bind ⟨0⟩ .empty = .ok (.error (.unbound ⟨0⟩ .start), v) ∧
      v.declarations.size = 3) ∧
    ∃ table resolution, table.Reached ∧ declaredSelf.resolve ⟨0⟩ table = .ok resolution ∧
      resolution.answer = .ok () ∧ (resolution.unit.findingsOf ⟨4⟩).referent = some ⟨0⟩ ∧
      (resolution.unit.findingsOf ⟨6⟩).referent = some ⟨2⟩ := by
  constructor
  · have hunbound : (selfUnit.bind ⟨0⟩ .empty).toOption.map Prod.fst =
        some (.error (.unbound ⟨0⟩ .start)) := by
      decide +kernel
    have hitem : selfUnit.HoldsItem ⟨0⟩ (selfUnit.item ⟨0⟩) := holdsItem_item (by decide +kernel)
    have hfree : selfUnit.NamesFree (selfUnit.item ⟨0⟩) := by decide +kernel
    obtain ⟨-, answer, v, -, hbind, hdeclarations, -⟩ :=
      (names_resolved_in_scope selfUnit_operations hitem hfree).2 .empty (by decide +kernel)
        (.inl rfl)
    rw [hbind] at hunbound
    obtain rfl := Option.some.inj hunbound
    refine ⟨v, hbind, ?_⟩
    rw [hdeclarations, Array.size_push]
    decide +kernel
  · obtain ⟨table, htable, hreturn, -⟩ := exists_returnTypeScope
    have hitem : declaredSelf.HoldsItem ⟨0⟩ (declaredSelf.item ⟨0⟩) :=
      holdsItem_item (by decide +kernel)
    have hfree : declaredSelf.NamesFree (declaredSelf.item ⟨0⟩) := by decide +kernel
    obtain ⟨resolution, hresolve, hresolved⟩ :=
      (names_resolved_in_scope declaredSelf_operations hitem hfree).1 ⟨2⟩ table
        (by decide +kernel) htable
    have hnames : declaredSelf.namesIn (declaredSelf.item ⟨0⟩) =
        [⟨⟨4⟩, ⟨0⟩, .start⟩, ⟨⟨6⟩, ⟨1⟩, .start⟩] := by
      decide +kernel
    have hname : (declaredSelf.item ⟨0⟩).name = ⟨1⟩ := by decide +kernel
    simp only [hnames, hname] at hresolved
    have hanswer := hresolved.ok_iff.mpr (by simp [scopeWith, hreturn])
    have hreferents := hresolved.referent hanswer
    simp only [scopeWith, hreturn, List.forall_mem_cons] at hreferents
    exact ⟨table, resolution, htable, hresolve, hanswer, hreferents.1, hreferents.2.1⟩

/-! ## What resolving leaves of a table -/

/-- The scope of an item is closed again, also if a name in it is unbound. -/
theorem resolve_scopes (htable : table.WellFormed) (hok : u.resolve item table = .ok resolution) :
    resolution.table.WellFormed ∧ resolution.table.scopes = table.scopes := by
  obtain ⟨-, decl, inside, -, hinside, -, hpop⟩ := resolve_eq_ok_iff.mp hok
  obtain ⟨inside', hinside', hformed, htail, hopen, -⟩ := htable.push_insert (u.item item).name decl
  obtain rfl := Except.ok.inj (hinside'.symm.trans hinside)
  obtain ⟨outside, hpop', houtside, hscopes⟩ := hformed.pop hopen
  obtain rfl := Except.ok.inj (hpop'.symm.trans hpop)
  exact ⟨houtside, hscopes.trans htail⟩

open Scopes.Operation in
/-- Resolving an item leaves the scopes of a table as they were: whatever is done with the table
after it is answered as without it. The next scope that is opened is empty. -/
theorem resolve_keeps_scopes (htable : table.Reached)
    (hok : u.resolve item table = .ok resolution) :
    resolution.table.depth = table.depth ∧
      (∀ name, resolution.table.lookup name = table.lookup name) ∧
      (∀ ops, (∀ op ∈ ops, op.FitsWord) →
        (runWith onScopes resolution.table ops).map Prod.fst =
          (runWith onScopes table ops).map Prod.fst) ∧
      ∃ opened, resolution.table.push.scopes = opened :: table.scopes ∧ opened.toList = [] := by
  obtain ⟨hformed, hscopes⟩ := resolve_scopes htable.wellFormed hok
  obtain ⟨maps, hbefore⟩ := htable.exists_represents
  have hafter := hbefore.of_scopes_eq hformed hscopes
  refine ⟨?_, Scopes.lookup_eq_of_scopes_eq hscopes, fun ops hops => ?_, ?_⟩
  · rw [hafter.depth_eq, hbefore.depth_eq]
  · rw [(hafter.run hops).map_fst, (hbefore.run hops).map_fst]
  · obtain ⟨opened, hpush, -, -, hkeys⟩ := hformed.exists_push
    refine ⟨opened, hscopes ▸ hpush, ?_⟩
    rw [← List.map_eq_nil_iff, OrderedMap.map_fst_toList, hkeys]

open Scopes.Operation in
/-- The names of a function are resolved in a scope with its return type, and fail to be where no
scope is open. The function is not known afterwards in either. -/
theorem resolve_keeps_scopes_declaredSelf : ∃ table resolution failure,
    Scopes.Reached table ∧ declaredSelf.resolve ⟨0⟩ table = .ok resolution ∧
      resolution.answer = .ok () ∧ resolution.table.lookup ⟨1⟩ = none ∧
      resolution.table.depth = 1 ∧
      declaredSelf.resolve ⟨0⟩ .empty = .ok failure ∧
      failure.answer = .error (.unbound ⟨0⟩ .start) ∧ failure.table.lookup ⟨1⟩ = none ∧
      failure.table.depth = 0 := by
  have hresolved : ((runWith onScopes Scopes.empty returnTypeScope).toOption.bind fun made =>
      (declaredSelf.resolve ⟨0⟩ made.2).toOption.map fun resolution =>
        (resolution.answer, made.2.lookup ⟨1⟩, made.2.depth)) = some (.ok (), none, 1) := by
    decide +kernel
  have hfailed : ((declaredSelf.resolve ⟨0⟩ .empty).toOption.map fun failure => failure.answer) =
      some (.error (.unbound ⟨0⟩ .start)) := by
    decide +kernel
  obtain ⟨⟨found, table⟩, hrun, hresult⟩ := Option.bind_eq_some_iff.mp hresolved
  obtain ⟨resolution, hresolve, heq⟩ := Option.map_eq_some_iff.mp hresult
  obtain ⟨failure, hfailure, hunbound⟩ := Option.map_eq_some_iff.mp hfailed
  simp only [Prod.mk.injEq] at heq
  obtain ⟨hanswer, hlookup, hdepth⟩ := heq
  have hreached : Scopes.Reached table :=
    ⟨returnTypeScope, found, by decide, toOption_eq_some_iff.mp hrun⟩
  have hempty : Scopes.Reached (.empty : Bindings .constant) := ⟨[], [], by simp, rfl⟩
  obtain ⟨hdepth', hlookup', -⟩ := resolve_keeps_scopes hreached (toOption_eq_some_iff.mp hresolve)
  obtain ⟨hdepth₀, hlookup₀, -⟩ := resolve_keeps_scopes hempty (toOption_eq_some_iff.mp hfailure)
  exact ⟨table, resolution, failure, hreached, toOption_eq_some_iff.mp hresolve, hanswer,
    (hlookup' ⟨1⟩).trans hlookup, hdepth'.trans hdepth, toOption_eq_some_iff.mp hfailure, hunbound,
    hlookup₀ ⟨1⟩, hdepth₀⟩

end CompilationUnit

end FrontEnd
