import FrontEnd.Proofs.CompilationUnit.Growth

/-! # Descents leave trails

Going inwards from an expression leaves a trail of the expressions passed, each of which leads to
the one before it. -/

namespace FrontEnd

/-- From an expression outwards, along expressions that each lead to the one before, to the last. -/
inductive Trail (inner? : ExprId → Option ExprId) : ExprId → List ExprId → ExprId → Prop where
  | stay (id : ExprId) : Trail inner? id [] id
  | out {id next top : ExprId} {rest : List ExprId} :
      inner? next = some id → Trail inner? next rest top → Trail inner? id (next :: rest) top

/-- What an expression leads to was there before it. -/
def LeadsDown (inner? : ExprId → Option ExprId) : Prop :=
  ∀ id inner, inner? id = some inner → inner.index < id.index

namespace Trail

variable {inner? : ExprId → Option ExprId} {leaf top : ExprId} {outer : List ExprId}

theorem index_le (hdown : LeadsDown inner?) (h : Trail inner? leaf outer top) :
    leaf.index ≤ top.index := by
  induction h with
  | stay id => exact Nat.le_refl _
  | out hnext _ ih => exact Nat.le_trans (Nat.le_of_lt (hdown _ _ hnext)) ih

/-- The trail goes upwards from the leaf, up to the last expression. -/
theorem index_of_mem (hdown : LeadsDown inner?) (h : Trail inner? leaf outer top) {id : ExprId}
    (hid : id ∈ outer) : leaf.index < id.index ∧ id.index ≤ top.index := by
  induction h with
  | stay id => cases hid
  | @out leaf next top rest hnext hrest ih =>
      have hlt := hdown _ _ hnext
      rcases List.mem_cons.mp hid with rfl | hid
      · exact ⟨hlt, hrest.index_le hdown⟩
      · exact ⟨Nat.lt_trans hlt (ih hid).1, (ih hid).2⟩

/-- Seen from its last expression, a trail ends there or goes on with what that leads to. -/
theorem eq_or_exists (h : Trail inner? leaf outer top) :
    leaf = top ∨ ∃ inner rest, inner? top = some inner ∧ Trail inner? leaf rest inner := by
  induction h with
  | stay id => exact .inl rfl
  | @out leaf next top rest hnext _ ih =>
      rcases ih with rfl | ⟨inner, rest', hinner, hrest⟩
      · exact .inr ⟨leaf, [], hnext, .stay leaf⟩
      · exact .inr ⟨inner, next :: rest', hinner, .out hnext hrest⟩

/-- Only what the expressions of the trail lead to matters. -/
theorem congr {other? : ExprId → Option ExprId} (h : Trail inner? leaf outer top)
    (heq : ∀ id ∈ outer, ∀ inner, inner? id = some inner → other? id = some inner) :
    Trail other? leaf outer top := by
  induction h with
  | stay id => exact .stay id
  | out hnext _ ih =>
      obtain ⟨hhead, htail⟩ := List.forall_mem_cons.mp heq
      exact .out (hhead _ hnext) (ih htail)

/-- What the leaf of a trail leads to does not matter to the trail. -/
theorem congr_of_ne {other? : ExprId → Option ExprId} (hdown : LeadsDown inner?)
    (h : Trail inner? leaf outer top)
    (heq : ∀ id, id ≠ leaf → ∀ inner, inner? id = some inner → other? id = some inner) :
    Trail other? leaf outer top := by
  refine h.congr fun id hid => heq id ?_
  rintro rfl
  exact Nat.lt_irrefl _ (h.index_of_mem hdown hid).1

theorem trans {mid : ExprId} {more : List ExprId} (h : Trail inner? leaf outer mid)
    (hmore : Trail inner? mid more top) : Trail inner? leaf (outer ++ more) top := by
  induction h with
  | stay _ => exact hmore
  | out hnext _ ih => exact .out hnext (ih hmore)

/-- All expressions of a trail lead to one inside. -/
theorem exists_inner_of_mem (h : Trail inner? leaf outer top) {id : ExprId} (hid : id ∈ outer) :
    ∃ inner, inner? id = some inner := by
  induction h with
  | stay _ => cases hid
  | out hnext _ ih =>
      rcases List.mem_cons.mp hid with rfl | hid
      · exact ⟨_, hnext⟩
      · exact ih hid

/-- From each expression of a trail the rest of it leads on. -/
theorem exists_of_mem (h : Trail inner? leaf outer top) {id : ExprId} (hid : id ∈ outer) :
    ∃ rest, Trail inner? id rest top := by
  induction h with
  | stay _ => cases hid
  | @out _ next _ rest _ hrest ih =>
      rcases List.mem_cons.mp hid with rfl | hid
      · exact ⟨rest, hrest⟩
      · exact ih hid

end Trail

/-! ## Expressions made one after another -/

/-- The first expression leads to none, and each next one to the one before it. -/
structure Links (inner? : ExprId → Option ExprId) (first last : Nat) : Prop where
  le : first ≤ last
  innermost : inner? ⟨first⟩ = none
  link : ∀ i, first ≤ i → i < last → inner? ⟨i + 1⟩ = some ⟨i⟩

namespace Links

variable {inner? other? : ExprId → Option ExprId} {first last : Nat}

/-- Each of the expressions leads to the one before it, if that is one of them. -/
theorem inner?_eq_some_iff (h : Links inner? first last) {id inner : ExprId}
    (hfirst : first ≤ id.index) (hlast : id.index ≤ last) :
    inner? id = some inner ↔ id.index = inner.index + 1 ∧ first ≤ inner.index := by
  obtain ⟨index⟩ := id
  obtain ⟨inner⟩ := inner
  simp only at hfirst hlast ⊢
  by_cases heq : index = first
  · rw [heq, h.innermost]
    exact iff_of_false (by simp) (by omega)
  · obtain ⟨index, rfl⟩ : ∃ n, index = n + 1 := ⟨index - 1, by omega⟩
    rw [h.link index (by omega) (by omega), Option.some.injEq, ExprId.mk.injEq]
    omega

theorem congr (h : Links inner? first last)
    (heq : ∀ id : ExprId, id.index ≤ last → other? id = inner? id) : Links other? first last where
  le := h.le
  innermost := (heq _ h.le).trans h.innermost
  link i hfirst hlast := (heq _ hlast).trans (h.link i hfirst hlast)

theorem extend (h : Links inner? first last) (hnext : inner? ⟨last + 1⟩ = some ⟨last⟩) :
    Links inner? first (last + 1) where
  le := Nat.le_succ_of_le h.le
  innermost := h.innermost
  link i hfirst hlt := by
    by_cases hlast : i = last
    · rw [hlast, hnext]
    · exact h.link i hfirst (by omega)

/-- From the last expression inwards are all of them. -/
theorem exists_trail_iff (h : Links inner? first last) (id : ExprId) :
    (∃ outer, Trail inner? id outer ⟨last⟩) ↔ first ≤ id.index ∧ id.index ≤ last := by
  constructor
  · rintro ⟨outer, htrail⟩
    generalize htop : (⟨last⟩ : ExprId) = top at htrail
    induction htrail with
    | stay id => exact htop ▸ ⟨h.le, Nat.le_refl _⟩
    | @out id next top rest hnext _ ih =>
        obtain ⟨hfirst, hlast⟩ := ih htop
        obtain ⟨hindex, hle⟩ := (h.inner?_eq_some_iff hfirst hlast).mp hnext
        omega
  · obtain ⟨index⟩ := id
    rintro ⟨hfirst, hlast⟩
    simp only at hfirst hlast
    obtain ⟨steps, rfl⟩ : ∃ steps, last = index + steps := ⟨last - index, by omega⟩
    clear hlast
    induction steps generalizing index with
    | zero => exact ⟨[], .stay _⟩
    | succ steps ih =>
        have hshift : index + (steps + 1) = index + 1 + steps := by omega
        rw [hshift] at h ⊢
        obtain ⟨outer, htrail⟩ := ih (index + 1) (by omega) h
        exact ⟨_, .out (h.link index hfirst (by omega)) htrail⟩

end Links

namespace ExprId

/-- A descent stops where nothing is left to go to, with the trail back. -/
theorem descend_spec {inner? : ExprId → Option ExprId} (hdown : LeadsDown inner?)
    {outer : List ExprId} {id top : ExprId} (h : Trail inner? id outer top) :
    Trail inner? (id.descend inner? outer).2 (id.descend inner? outer).1 top ∧
      inner? (id.descend inner? outer).2 = none := by
  fun_induction descend inner? outer id with
  | case1 outer id hnone => exact ⟨h, hnone⟩
  | case2 outer id inner hinner hlt ih => exact ih (.out hinner h)
  | case3 outer id inner hinner hlt => exact absurd (hdown _ _ hinner) hlt

/-- A descent follows a trail all the way inwards. -/
theorem descend_of_trail {inner? : ExprId → Option ExprId} (hdown : LeadsDown inner?)
    {leaf top : ExprId} {outer : List ExprId} (h : Trail inner? leaf outer top)
    (passed : List ExprId) :
    top.descend inner? passed = leaf.descend inner? (outer ++ passed) := by
  induction h with
  | stay id => rfl
  | @out leaf next top rest hnext _ ih =>
      rw [ih, descend, hnext, List.cons_append]
      exact if_pos (hdown _ _ hnext)

theorem descend_of_none {inner? : ExprId → Option ExprId} {outer : List ExprId} {id : ExprId}
    (h : inner? id = none) : id.descend inner? outer = (outer, id) := by
  rw [descend, h]

/-- The trail to where nothing is left to go to is the one that a descent leaves. -/
theorem descend_eq_of_trail {inner? : ExprId → Option ExprId} (hdown : LeadsDown inner?)
    {leaf top : ExprId} {outer : List ExprId} (h : Trail inner? leaf outer top)
    (hleaf : inner? leaf = none) : top.descend inner? [] = (outer, leaf) := by
  rw [descend_of_trail hdown h, descend_of_none hleaf, List.append_nil]

/-- A descent is the same where what it passes leads to the same. -/
theorem descend_congr {inner? other? : ExprId → Option ExprId} {outer : List ExprId}
    {id top : ExprId} (h : Trail inner? id outer top)
    (hsame : ∀ id outer, Trail inner? id outer top → other? id = inner? id) :
    id.descend other? outer = id.descend inner? outer := by
  fun_induction descend inner? outer id with
  | case1 outer id hnone => exact descend_of_none ((hsame id outer h).trans hnone)
  | case2 outer id inner hinner hlt ih =>
      rw [descend, hsame id outer h, hinner]
      exact (if_pos hlt).trans (ih (.out hinner h))
  | case3 outer id inner hinner hlt =>
      rw [descend, hsame id outer h, hinner]
      exact if_neg hlt

end ExprId

end FrontEnd
