import FrontEnd.Proofs.Scopes
import FrontEnd.Proofs.OrderedMap.Refinement
import FrontEnd.Proofs.Except
import Mathlib.Data.Finmap

/-! # Scopes answer as stacks of finite maps do

Tables that were in use before answer as new ones, whatever was bound in them and however large
they have grown. -/

namespace FrontEnd

variable {hash : Name → UInt32}

/-- The number of a name has 32 bits. -/
def Name.FitsWord (name : Name) : Prop := name.number < 2 ^ 32

instance (name : Name) : Decidable name.FitsWord := inferInstanceAs (Decidable (_ < _))

/-- There are too few names to fill a table. -/
theorem Name.length_lt_of_fitsWord {names : List Name} (hnodup : names.Nodup)
    (hnames : ∀ name ∈ names, name.FitsWord) : names.length < 2 ^ 32 := by
  have hindices : (names.map Name.index).Nodup := by
    apply hnodup.map
    intro name other heq
    cases name
    cases other
    exact congrArg Name.mk heq
  have hsubset : (names.map Name.index).toFinset ⊆ Finset.range (2 ^ 32 - 1) := by
    intro index hindex
    obtain ⟨name, hname, rfl⟩ := List.mem_map.mp (List.mem_toFinset.mp hindex)
    have hnumber : name.index + 1 < 2 ^ 32 := hnames name hname
    exact Finset.mem_range.mpr (by omega)
  have hcard := Finset.card_le_card hsubset
  rw [List.toFinset_card_of_nodup hindices, List.length_map, Finset.card_range] at hcard
  omega

namespace Scopes

variable {α : Type}

/-! ## Operations -/

/-- What is done with scopes one after another. -/
inductive Operation (α : Type)
  | push
  | pop
  | insert (name : Name) (value : α)
  | lookup (name : Name)
deriving DecidableEq

namespace Operation

/-- The names that are bound have numbers of 32 bits. -/
def FitsWord : Operation α → Prop
  | insert name _ => name.FitsWord
  | _ => True

/-- The operations close a scope, and bind a name, only where one is open. The number is that of
the scopes that are open at the start. -/
def Respects : Nat → List (Operation α) → Prop
  | _, [] => True
  | depth, push :: ops => Respects (depth + 1) ops
  | depth, pop :: ops => 0 < depth ∧ Respects (depth - 1) ops
  | depth, insert _ _ :: ops => 0 < depth ∧ Respects depth ops
  | depth, lookup _ :: ops => Respects depth ops

instance : DecidablePred (FitsWord (α := α))
  | push => .isTrue trivial
  | pop => .isTrue trivial
  | insert name _ => inferInstanceAs (Decidable name.FitsWord)
  | lookup _ => .isTrue trivial

instance decidableRespects :
    (depth : Nat) → (ops : List (Operation α)) → Decidable (Respects depth ops)
  | _, [] => .isTrue trivial
  | depth, push :: ops => decidableRespects (depth + 1) ops
  | depth, pop :: ops =>
    have := decidableRespects (depth - 1) ops
    inferInstanceAs (Decidable (_ ∧ _))
  | depth, insert _ _ :: ops =>
    have := decidableRespects depth ops
    inferInstanceAs (Decidable (_ ∧ _))
  | depth, lookup _ :: ops => decidableRespects depth ops

def isPush : Operation α → Bool
  | push => true
  | _ => false

def isPop : Operation α → Bool
  | pop => true
  | _ => false

/-- What the lookups of operations find, one after another, and the state after all of them. -/
def runWith {σ : Type} (step : σ → Operation α → Except Breach (Option α × σ)) :
    σ → List (Operation α) → Except Breach (List (Option α) × σ)
  | state, [] => .ok ([], state)
  | state, op :: ops => do
    let (found, state) ← step state op
    let (rest, state) ← runWith step state ops
    return (found :: rest, state)

theorem runWith_cons {σ : Type} {step : σ → Operation α → Except Breach (Option α × σ)}
    {state next last : σ} {op : Operation α} {ops : List (Operation α)} {found : Option α}
    {rest : List (Option α)} (hstep : step state op = .ok (found, next))
    (hrest : runWith step next ops = .ok (rest, last)) :
    runWith step state (op :: ops) = .ok (found :: rest, last) := by
  simp only [runWith, hstep, hrest, bind, Except.bind, pure, Except.pure]

def onScopes (s : Scopes hash α) : Operation α → Except Breach (Option α × Scopes hash α)
  | push => .ok (none, s.push)
  | pop => s.pop.map (none, ·)
  | insert name value => (s.insert name value).map (none, ·)
  | lookup name => .ok (s.lookup name, s)

/-- A value for each of finitely many names. -/
abbrev FiniteMap (α : Type) : Type := Finmap fun _ : Name => α

/-- The value of a name in the first map that has one. -/
def lookupIn (maps : List (FiniteMap α)) (name : Name) : Option α :=
  maps.findSome? fun map => map.lookup name

/-- The same operation on the maps of the open scopes, innermost first. -/
def onMaps : List (FiniteMap α) → Operation α → Except Breach (Option α × List (FiniteMap α))
  | maps, push => .ok (none, ∅ :: maps)
  | [], pop => .error .noScopeToPop
  | _ :: maps, pop => .ok (none, maps)
  | [], insert _ _ => .error .noScopeToInsertInto
  | map :: maps, insert name value => .ok (none, map.insert name value :: maps)
  | maps, lookup name => .ok (lookupIn maps name, maps)

theorem onMaps_lookup (maps : List (FiniteMap α)) (name : Name) :
    onMaps maps (lookup name) = .ok (lookupIn maps name, maps) := by
  cases maps <;> rfl

end Operation

open Scopes.Operation

/-! ## Tables and maps -/

/-- A good table whose names have the values that a map gives them. -/
structure Tabulates (table : OrderedMap hash α) (map : FiniteMap α) : Prop where
  wellFormed : table.WellFormed
  fitsWord : ∀ name ∈ table.keys, name.FitsWord
  get?_eq : ∀ name, table.get? name = map.lookup name

namespace Tabulates

variable {table : OrderedMap hash α} {map : FiniteMap α}

theorem of_keys (h : table.WellFormed) (hkeys : table.keys = []) : Tabulates table ∅ where
  wellFormed := h
  fitsWord := by simp [hkeys]
  get?_eq name := by rw [h.get?_of_notMem (by simp [hkeys]), Finmap.lookup_empty]

theorem size_lt (h : Tabulates table map) {name : Name} (hname : name.FitsWord)
    (hnew : name ∉ table.keys) : table.size + 1 < 2 ^ 32 := by
  have hlength := Name.length_lt_of_fitsWord (List.nodup_cons.mpr ⟨hnew, h.wellFormed.nodup⟩)
    (List.forall_mem_cons.mpr ⟨hname, h.fitsWord⟩)
  rwa [List.length_cons, OrderedMap.length_keys] at hlength

theorem set (h : Tabulates table map) {name : Name} (hname : name.FitsWord) (value : α) :
    Tabulates (table.set name value).map (map.insert name value) where
  wellFormed := h.wellFormed.set name value (h.size_lt hname)
  fitsWord other hother := by
    cases h.wellFormed.mem_keys_set hother with
    | inl heq => exact heq ▸ hname
    | inr hmem => exact h.fitsWord other hmem
  get?_eq other := by
    rw [h.wellFormed.get?_set name value (h.size_lt hname)]
    by_cases heq : other = name
    · rw [if_pos heq, heq, Finmap.lookup_insert]
    · rw [if_neg heq, Finmap.lookup_insert_of_ne _ heq, h.get?_eq]

end Tabulates

/-- Each open scope tabulates its map, and the spare tables hold nothing. -/
structure Represents (s : Scopes hash α) (maps : List (FiniteMap α)) : Prop where
  scopes : List.Forall₂ Tabulates s.scopes maps
  spare : ∀ table ∈ s.spare, table.WellFormed ∧ table.keys = []

namespace Represents

variable {s : Scopes hash α} {maps : List (FiniteMap α)}

theorem empty : (empty : Scopes hash α).Represents [] := ⟨.nil, by simp [Scopes.empty]⟩

theorem wellFormed (h : s.Represents maps) : s.WellFormed where
  scopes := by
    have htables := h.scopes.imp fun _ _ htable => And.intro htable.wellFormed htable
    exact ((List.forall₂_and_left _ _).mp htables).1
  spare := h.spare

theorem of_scopes_eq {other : Scopes hash α} (h : s.Represents maps) (hother : other.WellFormed)
    (hscopes : other.scopes = s.scopes) : other.Represents maps :=
  ⟨hscopes ▸ h.scopes, hother.spare⟩

theorem depth_eq (h : s.Represents maps) : s.depth = maps.length := h.scopes.length_eq

theorem lookup_eq (h : s.Represents maps) (name : Name) : s.lookup name = lookupIn maps name := by
  obtain ⟨htables, -⟩ := h
  simp only [lookup, lookupIn]
  generalize s.scopes = tables at htables ⊢
  induction htables with
  | nil => rfl
  | cons htable _ ih => rw [List.findSome?_cons, List.findSome?_cons, htable.get?_eq, ih]

/-! ## One operation -/

theorem push (h : s.Represents maps) : s.push.Represents (∅ :: maps) := by
  obtain ⟨table, hscopes, hspare, htable, hkeys⟩ := h.wellFormed.exists_push
  constructor
  · rw [hscopes]
    exact .cons (.of_keys htable hkeys) h.scopes
  · exact fun other hother => h.spare other (hspare.subset hother)

/-- What the same operation gives for scopes and for maps. -/
inductive Agree {β : Type} :
    Except Breach (β × Scopes hash α) → Except Breach (β × List (FiniteMap α)) → Prop
  | ok {found : β} {s : Scopes hash α} {maps : List (FiniteMap α)} :
      s.Represents maps → Agree (.ok (found, s)) (.ok (found, maps))
  | error (breach : Breach) : Agree (.error breach) (.error breach)

theorem step (h : s.Represents maps) {op : Operation α} (hop : op.FitsWord) :
    Agree (onScopes s op) (onMaps maps op) := by
  cases op with
  | push => exact .ok h.push
  | pop =>
      obtain ⟨hscopes, hspare⟩ := h
      cases s with
      | mk scopes spare =>
        cases hscopes with
        | nil => exact .error _
        | cons htable hscopes =>
            refine .ok ⟨hscopes, List.forall_mem_cons.mpr ⟨⟨htable.wellFormed.clear, ?_⟩, hspare⟩⟩
            simp [OrderedMap.clear, OrderedMap.keys]
  | insert name value =>
      obtain ⟨hscopes, hspare⟩ := h
      cases s with
      | mk scopes spare =>
        cases hscopes with
        | nil => exact .error _
        | cons htable hscopes => exact .ok ⟨.cons (htable.set hop value) hscopes, hspare⟩
  | lookup name =>
      rw [onMaps_lookup, onScopes, h.lookup_eq]
      exact .ok h

/-! ## Operations one after another -/

theorem run (h : s.Represents maps) {ops : List (Operation α)} (hops : ∀ op ∈ ops, op.FitsWord) :
    Agree (runWith onScopes s ops) (runWith onMaps maps ops) := by
  induction ops generalizing s maps with
  | nil => exact .ok h
  | cons op ops ih =>
      have hstep := h.step (hops op List.mem_cons_self)
      simp only [runWith]
      generalize onScopes s op = after, onMaps maps op = afterMaps at hstep ⊢
      cases hstep with
      | error breach => exact .error breach
      | ok hnext =>
          have hrest := ih hnext fun op hop => hops op (List.mem_cons_of_mem _ hop)
          simp only [bind, Except.bind]
          generalize runWith onScopes _ ops = last, runWith onMaps _ ops = lastMaps at hrest ⊢
          cases hrest with
          | error breach => exact .error breach
          | ok hlast => exact .ok hlast

/-- Operations from the start answer as on no maps at all. -/
theorem runFromEmpty (hash : Name → UInt32) {ops : List (Operation α)}
    (hops : ∀ op ∈ ops, op.FitsWord) :
    Agree (runWith onScopes (Scopes.empty : Scopes hash α) ops) (runWith onMaps [] ops) :=
  empty.run hops

theorem Agree.map_fst {β : Type} {x : Except Breach (β × Scopes hash α)}
    {y : Except Breach (β × List (FiniteMap α))} (h : Agree x y) :
    x.map Prod.fst = y.map Prod.fst := by
  cases h with
  | ok => rfl
  | error => rfl

/-! ## Operations that keep to the rules -/

/-- Maps never refuse operations that keep to the rules, and there are as many of them as scopes
were opened and not closed again. -/
theorem exists_runWith_onMaps {ops : List (Operation α)} (maps : List (FiniteMap α))
    (hops : Respects maps.length ops) :
    ∃ found last, runWith onMaps maps ops = .ok (found, last) ∧
      last.length + ops.countP isPop = maps.length + ops.countP isPush := by
  induction ops generalizing maps with
  | nil => exact ⟨[], maps, rfl, rfl⟩
  | cons op ops ih =>
      simp only [List.countP_cons]
      cases op with
      | push =>
          obtain ⟨found, last, hrun, hcount⟩ := ih (∅ :: maps) hops
          refine ⟨_, last, runWith_cons rfl hrun, ?_⟩
          simp [isPush, isPop] at hcount ⊢
          omega
      | pop =>
          obtain ⟨hopen, hops⟩ := hops
          cases maps with
          | nil => exact absurd hopen (lt_irrefl 0)
          | cons map maps =>
              obtain ⟨found, last, hrun, hcount⟩ := ih maps hops
              refine ⟨_, last, runWith_cons rfl hrun, ?_⟩
              simp [isPush, isPop] at hcount ⊢
              omega
      | insert name value =>
          obtain ⟨hopen, hops⟩ := hops
          cases maps with
          | nil => exact absurd hopen (lt_irrefl 0)
          | cons map maps =>
              obtain ⟨found, last, hrun, hcount⟩ := ih (map.insert name value :: maps) hops
              exact ⟨_, last, runWith_cons rfl hrun, hcount⟩
      | lookup name =>
          obtain ⟨found, last, hrun, hcount⟩ := ih maps hops
          exact ⟨_, last, runWith_cons (onMaps_lookup maps name) hrun, hcount⟩

end Represents

/-- Lookups find what they find in a stack of finite maps, and operations are refused where they
are there. Operations that keep to the rules are never refused: after them as many scopes are open
as were opened and not closed again, and the next one that is opened is empty. -/
theorem runWith_onScopes_refines_maps (hash : Name → UInt32) (ops : List (Operation α))
    (hops : ∀ op ∈ ops, op.FitsWord) :
    (runWith onScopes (empty : Scopes hash α) ops).map Prod.fst =
        (runWith onMaps [] ops).map Prod.fst ∧
      (Respects 0 ops →
        ∃ found s maps, runWith onScopes (empty : Scopes hash α) ops = .ok (found, s) ∧
          runWith onMaps [] ops = .ok (found, maps) ∧
          s.depth = maps.length ∧ s.depth + ops.countP isPop = ops.countP isPush ∧
          (∀ name, s.lookup name = lookupIn maps name) ∧
          ∃ table, s.push.scopes = table :: s.scopes ∧ table.toList = [] ∧
            ∀ name, table.get? name = none) := by
  have hrun := Represents.runFromEmpty hash hops
  refine ⟨hrun.map_fst, fun hrespects => ?_⟩
  obtain ⟨found, maps, hmaps, hcount⟩ := Represents.exists_runWith_onMaps [] hrespects
  rw [hmaps] at hrun ⊢
  generalize hscopes : runWith onScopes (empty : Scopes hash α) ops = last at hrun ⊢
  cases hrun with
  | ok hlast =>
      rename_i s
      obtain ⟨table, hpush, -, htable, hkeys⟩ := hlast.wellFormed.exists_push
      refine ⟨found, s, maps, rfl, rfl, hlast.depth_eq, ?_, hlast.lookup_eq, table, hpush, ?_, ?_⟩
      · rw [hlast.depth_eq, hcount, List.length_nil, Nat.zero_add]
      · rw [← List.map_eq_nil_iff, OrderedMap.map_fst_toList, hkeys]
      · exact fun name => htable.get?_of_notMem (by simp [hkeys])

/-- A scope that grew over two tables is closed and its table opened again. -/
def regrown : List (Operation Nat) :=
  .push :: (List.range 40).map (fun n => .insert ⟨n⟩ (n * n)) ++
    [.lookup ⟨7⟩, .pop, .push, .lookup ⟨7⟩, .insert ⟨7⟩ 1, .push, .insert ⟨8⟩ 2, .lookup ⟨7⟩,
      .lookup ⟨8⟩, .lookup ⟨9⟩]

theorem runWith_onScopes_regrown :
    ∃ (found : _) (s : Scopes (fun _ => 0) Nat) (table : _),
      runWith onScopes empty regrown = .ok (found, s) ∧
      found.reduceOption = [49, 1, 2] ∧ s.depth = 2 ∧
      s.push.scopes = table :: s.scopes ∧ table.toList = [] := by
  obtain ⟨found, s, maps, hscopes, hmaps, -, hcount, -, table, htable, hlist, -⟩ :=
    (runWith_onScopes_refines_maps _ regrown (by decide)).2 (by decide)
  refine ⟨found, s, table, hscopes, ?_, ?_, htable, hlist⟩
  · have hmaps' : ((runWith onMaps [] regrown).map Prod.fst).toOption.map List.reduceOption =
        some [49, 1, 2] := by decide +kernel
    rw [hmaps] at hmaps'
    exact Option.some.inj hmaps'
  · have hpushes : regrown.countP isPush = 3 ∧ regrown.countP isPop = 1 := by decide
    omega

/-! ## Scopes that can be reached -/

/-- Scopes that operations make from the start. -/
def Reached (s : Scopes hash α) : Prop :=
  ∃ ops found, (∀ op ∈ ops, FitsWord op) ∧ runWith onScopes empty ops = .ok (found, s)

theorem Reached.exists_represents {s : Scopes hash α} (h : s.Reached) :
    ∃ maps, s.Represents maps := by
  obtain ⟨ops, found, hops, hrun⟩ := h
  have hagree := Represents.runFromEmpty hash hops
  rw [hrun] at hagree
  generalize runWith onMaps [] ops = last at hagree
  cases hagree with
  | ok hlast => exact ⟨_, hlast⟩

theorem Reached.wellFormed {s : Scopes hash α} (h : s.Reached) : s.WellFormed := by
  obtain ⟨maps, hmaps⟩ := h.exists_represents
  exact hmaps.wellFormed

end Scopes

end FrontEnd
