import FrontEnd.Scopes
import FrontEnd.Proofs.OrderedMap.Insertion

/-! # Lookup in nested scopes

A scope that is opened is empty, also if its table was in use before, and closing it leaves the
scopes around it as they were. -/

namespace FrontEnd.Scopes

variable {hash : Name → UInt32}

variable {α : Type}

/-- All tables are good, and the spare ones hold nothing. -/
structure WellFormed (s : Scopes hash α) : Prop where
  scopes : ∀ table ∈ s.scopes, table.WellFormed
  spare : ∀ table ∈ s.spare, table.WellFormed ∧ table.keys = []

/-- The innermost scope can take one more name. -/
def HasRoom (s : Scopes hash α) : Prop := ∀ table ∈ s.scopes.head?, table.size + 1 < 2 ^ 32

theorem empty_wellFormed : (empty : Scopes hash α).WellFormed := ⟨by simp [empty], by simp [empty]⟩

theorem lookup_empty (name : Name) : (empty : Scopes hash α).lookup name = none := rfl

/-! ## Opening -/

/-- The tables of closed scopes hold nothing. -/
def Cleared (s : Scopes hash α) : Prop := ∀ table ∈ s.spare, table.WellFormed ∧ table.keys = []

/-- What is opened is an empty table before the open ones. -/
theorem Cleared.exists_push {s : Scopes hash α} (h : s.Cleared) :
    ∃ table, s.push.scopes = table :: s.scopes ∧ s.push.spare <:+ s.spare ∧ table.WellFormed ∧
      table.keys = [] := by
  unfold push
  split
  · exact ⟨_, rfl, List.nil_suffix, OrderedMap.empty_wellFormed, rfl⟩
  · rename_i table spare hspare
    obtain ⟨htable, hkeys⟩ := h table (by simp [hspare])
    exact ⟨table, rfl, by simp [hspare], htable, hkeys⟩

theorem Cleared.lookup_push {s : Scopes hash α} (h : s.Cleared) (name : Name) :
    s.push.lookup name = s.lookup name := by
  obtain ⟨table, hscopes, -, htable, hkeys⟩ := h.exists_push
  have hnone : table.get? name = none := htable.get?_of_notMem (by simp [hkeys])
  rw [lookup, hscopes, List.findSome?_cons, hnone]
  rfl

theorem WellFormed.cleared {s : Scopes hash α} (h : s.WellFormed) : s.Cleared := h.spare

theorem WellFormed.exists_push {s : Scopes hash α} (h : s.WellFormed) :
    ∃ table, s.push.scopes = table :: s.scopes ∧ s.push.spare <:+ s.spare ∧ table.WellFormed ∧
      table.keys = [] :=
  h.cleared.exists_push

theorem WellFormed.push {s : Scopes hash α} (h : s.WellFormed) : s.push.WellFormed := by
  obtain ⟨table, hscopes, hspare, htable, -⟩ := h.exists_push
  constructor
  · rw [hscopes]
    exact List.forall_mem_cons.mpr ⟨htable, h.scopes⟩
  · exact fun table htable => h.spare table (hspare.subset htable)

theorem WellFormed.push_hasRoom {s : Scopes hash α} (h : s.WellFormed) : s.push.HasRoom := by
  obtain ⟨table, hscopes, -, -, hkeys⟩ := h.exists_push
  intro head hhead
  rw [hscopes] at hhead
  cases hhead
  rw [← OrderedMap.length_keys, hkeys]
  decide

@[simp] theorem WellFormed.lookup_push {s : Scopes hash α} (h : s.WellFormed) (name : Name) :
    s.push.lookup name = s.lookup name :=
  h.cleared.lookup_push name

theorem push_scopes_ne_nil (s : Scopes hash α) : s.push.scopes ≠ [] := by
  unfold push
  split <;> simp

/-! ## Insertion -/

theorem WellFormed.insert {s : Scopes hash α} (h : s.WellFormed) (hroom : s.HasRoom)
    (hopen : s.scopes ≠ []) (name : Name) (value : α) :
    ∃ after, s.insert name value = .ok after ∧ after.WellFormed ∧
      after.scopes.tail = s.scopes.tail ∧ after.scopes ≠ [] ∧
      ∀ other, after.lookup other = if other = name then some value else s.lookup other := by
  cases hscopes : s.scopes with
  | nil => exact absurd hscopes hopen
  | cons table scopes =>
      have htable := h.scopes table (by simp [hscopes])
      have hsize : table.size + 1 < 2 ^ 32 := hroom table (by simp [hscopes])
      refine ⟨⟨(table.set name value).map :: scopes, s.spare⟩, ?_, ⟨?_, h.spare⟩, rfl, by simp, ?_⟩
      · simp only [Scopes.insert, hscopes]
      · refine List.forall_mem_cons.mpr
          ⟨htable.set name value fun _ => hsize, fun other hother => ?_⟩
        exact h.scopes other (by simp [hscopes, hother])
      · intro other
        simp only [lookup, hscopes, List.findSome?_cons, htable.get?_set name value fun _ => hsize]
        by_cases hname : other = name
        · rw [if_pos hname, if_pos hname]
        · rw [if_neg hname, if_neg hname]

/-- A name that is bound in a scope of its own hides what it stands for outside. -/
theorem WellFormed.push_insert {s : Scopes hash α} (h : s.WellFormed) (name : Name) (value : α) :
    ∃ after, s.push.insert name value = .ok after ∧ after.WellFormed ∧
      after.scopes.tail = s.scopes ∧ after.scopes ≠ [] ∧
      ∀ other, after.lookup other = if other = name then some value else s.lookup other := by
  obtain ⟨table, hscopes, -⟩ := h.exists_push
  obtain ⟨after, hinsert, hafter, htail, hopen, hlookup⟩ :=
    h.push.insert h.push_hasRoom (push_scopes_ne_nil s) name value
  refine ⟨after, hinsert, hafter, ?_, hopen, fun other => ?_⟩
  · rw [htail, hscopes, List.tail_cons]
  · rw [hlookup, h.lookup_push]

/-! ## Closing -/

/-- Closing gives back the scopes around the innermost one. -/
theorem WellFormed.pop {s : Scopes hash α} (h : s.WellFormed) (hopen : s.scopes ≠ []) :
    ∃ after, s.pop = .ok after ∧ after.WellFormed ∧ after.scopes = s.scopes.tail := by
  cases hscopes : s.scopes with
  | nil => exact absurd hscopes hopen
  | cons table scopes =>
      refine ⟨⟨scopes, table.clear :: s.spare⟩, by simp only [Scopes.pop, hscopes], ?_, rfl⟩
      constructor
      · exact fun other hother => h.scopes other (by simp [hscopes, hother])
      · refine List.forall_mem_cons.mpr ⟨⟨?_, ?_⟩, h.spare⟩
        · exact (h.scopes table (by simp [hscopes])).clear
        · simp [OrderedMap.clear, OrderedMap.keys]

theorem lookup_eq_of_scopes_eq {s other : Scopes hash α} (h : s.scopes = other.scopes)
    (name : Name) :
    s.lookup name = other.lookup name := by
  rw [lookup, lookup, h]

/-- A scope that is opened and closed again leaves the scopes around it, and its table empty. -/
theorem Cleared.pop_push {s : Scopes hash α} (h : s.Cleared) :
    ∃ after, s.push.pop = .ok after ∧ after.Cleared ∧ after.scopes = s.scopes := by
  obtain ⟨table, hscopes, hspare, htable, -⟩ := h.exists_push
  refine ⟨⟨s.scopes, table.clear :: s.push.spare⟩, by simp only [Scopes.pop, hscopes], ?_, rfl⟩
  refine List.forall_mem_cons.mpr ⟨⟨htable.clear, ?_⟩, fun other hother => ?_⟩
  · simp [OrderedMap.clear, OrderedMap.keys]
  · exact h other (hspare.subset hother)

/-- A scope that is opened and closed again leaves every lookup as it was. -/
theorem WellFormed.pop_push {s : Scopes hash α} (h : s.WellFormed) :
    ∃ after, s.push.pop = .ok after ∧ after.WellFormed ∧
      ∀ name, after.lookup name = s.lookup name := by
  obtain ⟨after, hpop, hcleared, hscopes⟩ := h.cleared.pop_push
  exact ⟨after, hpop, ⟨hscopes ▸ h.scopes, hcleared⟩, lookup_eq_of_scopes_eq hscopes⟩

end FrontEnd.Scopes
