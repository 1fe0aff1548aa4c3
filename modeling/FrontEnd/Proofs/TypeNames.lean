import FrontEnd.Proofs.Coherence.Runs
import FrontEnd.Proofs.Typing.Reports

/-! # Types are equal exactly if they are spelled alike

Types are compared and spelled by going down from a function type to its result. Whatever was done
with a unit, this comes to an end, the comparison is an equivalence, and it is equality of the
spellings. -/

namespace FrontEnd

variable {hash : Hasher}

namespace CompilationUnit

/-! ## Spellings -/

theorem spellShape_function (depth : Nat) (kind : BaseType) :
    spellShape (depth + 1, kind) = "() -> " ++ spellShape (depth, kind) := by
  simp only [spellShape, List.replicate_succ, String.join_cons, String.append_assoc]

/-- No base type is called like a function type. -/
theorem spellShape_function_ne (depth : Nat) (kind other : BaseType) :
    spellShape (depth + 1, kind) ≠ spellShape (0, other) := by
  intro h
  rw [spellShape_function, spellShape_base] at h
  have hhead := congrArg (·.toList.head?) h
  cases other <;> simp [BaseType.name] at hhead

theorem spellShape_injective : Function.Injective spellShape := by
  rintro ⟨d, k⟩ ⟨e, l⟩ h
  induction d generalizing e with
  | zero =>
      cases e with
      | zero =>
          rw [spellShape_base, spellShape_base] at h
          cases k <;> cases l <;> first | rfl | exact absurd h (by decide)
      | succ e => exact absurd h.symm (spellShape_function_ne e l k)
  | succ d ih =>
      cases e with
      | zero => exact absurd h (spellShape_function_ne d k l)
      | succ e =>
          rw [spellShape_function, spellShape_function] at h
          obtain ⟨rfl, rfl⟩ := Prod.mk.inj (ih e (String.append_right_inj _ |>.mp h))
          rfl

variable {u v : CompilationUnit hash} {a b : TypeId} {d e : Nat} {k l : BaseType}

/-! ## The loops down the types -/

/-- A comparison that comes to an end. No bound is on its steps, and every type that it looks at is
there. -/
inductive Compares (u : CompilationUnit hash) : TypeId → TypeId → Bool → Prop where
  | same (a : TypeId) : Compares u a a true
  | bases {a b x y} : a ≠ b → u.HoldsType a (.base x) → u.HoldsType b (.base y) →
      Compares u a b (decide (x = y))
  | functions {a b x y answer} : a ≠ b → u.HoldsType a (.function x) →
      u.HoldsType b (.function y) → Compares u x y answer → Compares u a b answer
  | baseAndFunction {a b x y} : a ≠ b → u.HoldsType a (.base x) → u.HoldsType b (.function y) →
      Compares u a b false
  | functionAndBase {a b x y} : a ≠ b → u.HoldsType a (.function x) → u.HoldsType b (.base y) →
      Compares u a b false

/-- A spelling that comes to an end. -/
inductive SpelledAs (u : CompilationUnit hash) : TypeId → String → Prop where
  | base {a kind} : u.HoldsType a (.base kind) → SpelledAs u a kind.name
  | function {a result text} : u.HoldsType a (.function result) → SpelledAs u result text →
      SpelledAs u a ("() -> " ++ text)

/-- A comparison that comes to an end has the answer. -/
theorem Compares.sameType_eq (h : u.TypesDescend) {answer : Bool} (hab : u.Compares a b answer) :
    u.sameType a b = answer := by
  induction hab with
  | same a => exact sameType_self u a
  | bases hne ha hb =>
      rw [sameType, if_neg hne, ha.typeNode_eq, hb.typeNode_eq]
  | functions hne ha hb _ ih =>
      rw [sameType, if_neg hne, ha.typeNode_eq, hb.typeNode_eq]
      simp only [h _ _ ha, if_true, ih]
  | baseAndFunction hne ha hb =>
      rw [sameType, if_neg hne, ha.typeNode_eq, hb.typeNode_eq]
  | functionAndBase hne ha hb =>
      rw [sameType, if_neg hne, ha.typeNode_eq, hb.typeNode_eq]

/-- Every comparison comes to an end. -/
theorem Shape.exists_compares (ha : u.Shape a d k) (hb : u.Shape b e l) :
    ∃ answer, u.Compares a b answer := by
  induction ha generalizing b e with
  | @base a kind hnode =>
      by_cases hne : a = b
      · exact ⟨true, hne ▸ .same a⟩
      · cases hb with
        | base hother => exact ⟨_, .bases hne hnode hother⟩
        | function hother _ => exact ⟨_, .baseAndFunction hne hnode hother⟩
  | @function a result depth kind hnode _ ih =>
      by_cases hne : a = b
      · exact ⟨true, hne ▸ .same a⟩
      · cases hb with
        | base hother => exact ⟨_, .functionAndBase hne hnode hother⟩
        | function hother hresult =>
            obtain ⟨answer, hanswer⟩ := ih hresult
            exact ⟨answer, .functions hne hnode hother hanswer⟩

theorem Shape.spelledAs (h : u.Shape a d k) : u.SpelledAs a (spellShape (d, k)) := by
  induction h with
  | base hnode =>
      rw [spellShape_base]
      exact .base hnode
  | function hnode _ ih =>
      rw [spellShape_function]
      exact .function hnode ih

/-- What is spelled to its end is spelled by its shape. -/
theorem SpelledAs.exists_shape {text : String} (h : u.SpelledAs a text) :
    ∃ d k, u.Shape a d k ∧ text = spellShape (d, k) := by
  induction h with
  | @base a kind hnode => exact ⟨0, kind, .base hnode, (spellShape_base kind).symm⟩
  | function hnode _ ih =>
      obtain ⟨d, k, hshape, rfl⟩ := ih
      exact ⟨d + 1, k, .function hnode hshape, (spellShape_function d k).symm⟩

theorem TypesDescend.spellType_eq_spellShape (h : u.TypesDescend) (ha : u.Shape a d k) :
    u.spellType a = spellShape (d, k) := h.spellType_eq ha

/-- What is spelled to its end is the spelling. -/
theorem SpelledAs.spellType_eq (h : u.TypesDescend) {text : String} (ha : u.SpelledAs a text) :
    u.spellType a = text := by
  obtain ⟨d, k, hshape, rfl⟩ := ha.exists_shape
  exact h.spellType_eq hshape

/-- Types are equal exactly if their spellings are. -/
theorem TypesDescend.sameType_iff_spellType_eq (h : u.TypesDescend) (ha : u.Shape a d k)
    (hb : u.Shape b e l) : u.sameType a b = true ↔ u.spellType a = u.spellType b := by
  rw [h.sameType_iff ha hb, h.spellType_eq_spellShape ha, h.spellType_eq_spellShape hb,
    spellShape_injective.eq_iff, Prod.mk.injEq]

/-- Function types are equal exactly if their results are. -/
theorem TypesDescend.sameType_function (h : u.TypesDescend) (ha : u.Shape a d k)
    (hb : u.Shape b e l) {first second : TypeId} (hfirst : u.HoldsType first (.function a))
    (hsecond : u.HoldsType second (.function b)) :
    u.sameType first second = u.sameType a b := by
  rw [Bool.eq_iff_iff, h.sameType_iff ha hb, h.sameType_iff (.function hfirst ha)
    (.function hsecond hb), Nat.succ_inj]

/-- Function types that are added are equal exactly if their results were. -/
theorem Coherent.sameType_addFunctionType (h : u.Coherent) (ha : u.HasType a) (hb : u.HasType b) :
    let (first, v) := u.addFunctionType a
    let (second, w) := v.addFunctionType b
    w.sameType first second = u.sameType a b := by
  have hfirst := h.addFunctionType ha
  have hsecond := hfirst.coherent.addFunctionType (hb.grow hfirst.grown)
  have hgrown := hfirst.grown.trans hsecond.grown
  obtain ⟨d, k, hshape⟩ := h.typesDescend.exists_shape ha
  obtain ⟨e, l, hshape'⟩ := h.typesDescend.exists_shape hb
  have hsame := hsecond.coherent.typesDescend.sameType_function (hgrown.shape hshape)
    (hgrown.shape hshape') (hsecond.grown.holdsType (holdsType_addFunctionType u a))
    (holdsType_addFunctionType _ b)
  dsimp only
  rw [hsame, Bool.eq_iff_iff, h.typesDescend.sameType_iff hshape hshape',
    hsecond.coherent.typesDescend.sameType_iff (hgrown.shape hshape) (hgrown.shape hshape')]

end CompilationUnit

open CompilationUnit

/-- A message about two types spells both. -/
theorem TypingError.message_mismatch {u : CompilationUnit hash} {expected actual : TypeId}
    (hexpected : u.HasType expected) (hactual : u.HasType actual) (pos : Position) :
    (mismatch expected actual pos).message u = .ok ("expected type `" ++
      u.spellType expected ++ "`, found `" ++ u.spellType actual ++ "`") := by
  simp only [message, checkIndex_of_lt hexpected, checkIndex_of_lt hactual]
  rfl

/-- Whatever was done with a unit, comparing and spelling its types comes to an end. The comparison
is an equivalence, function types are equal exactly if their results are, and types are equal
exactly if they are spelled alike: a message about two types that differ spells them differently. -/
theorem Session.types_equal_iff_spelled_alike {s : Session hash} (hs : Operations (new hash) s)
    {a b c : TypeId} (ha : s.unit.HasType a) (hb : s.unit.HasType b) (hc : s.unit.HasType c) :
    (∀ answer, s.unit.Compares a b answer ↔ answer = s.unit.sameType a b) ∧
    (∀ text, s.unit.SpelledAs a text ↔ text = s.unit.spellType a) ∧
    s.unit.sameType a a = true ∧
    (s.unit.sameType a b = true → s.unit.sameType b a = true) ∧
    (s.unit.sameType a b = true → s.unit.sameType b c = true → s.unit.sameType a c = true) ∧
    (let (first, u) := s.unit.addFunctionType a
      let (second, v) := u.addFunctionType b
      v.sameType first second = s.unit.sameType a b) ∧
    (s.unit.sameType a b = true ↔ s.unit.spellType a = s.unit.spellType b) ∧
    ∀ pos, ∃ expected actual, (TypingError.mismatch a b pos).message s.unit =
        .ok ("expected type `" ++ expected ++ "`, found `" ++ actual ++ "`") ∧
      s.unit.SpelledAs a expected ∧ s.unit.SpelledAs b actual ∧
      (s.unit.sameType a b = false → expected ≠ actual) := by
  have hcoherent := (grown_and_coherent hs .refl).2
  have hdescend := hcoherent.typesDescend
  obtain ⟨d, k, hshape⟩ := hdescend.exists_shape ha
  obtain ⟨e, l, hshape'⟩ := hdescend.exists_shape hb
  obtain ⟨f, m, hshape''⟩ := hdescend.exists_shape hc
  have hspelled : ∀ {type depth kind}, s.unit.Shape type depth kind →
      s.unit.SpelledAs type (s.unit.spellType type) := fun h => by
    rw [hdescend.spellType_eq_spellShape h]
    exact h.spelledAs
  have hspell := hdescend.sameType_iff_spellType_eq hshape hshape'
  refine ⟨fun answer => ⟨fun h => (h.sameType_eq hdescend).symm, ?_⟩,
    fun text => ⟨fun h => (h.spellType_eq hdescend).symm, ?_⟩, sameType_self _ a, ?_, ?_,
    hcoherent.sameType_addFunctionType ha hb, hspell, fun pos => ?_⟩
  · rintro rfl
    obtain ⟨answer, hanswer⟩ := hshape.exists_compares hshape'
    rwa [hanswer.sameType_eq hdescend]
  · rintro rfl
    exact hspelled hshape
  · rw [hspell, hdescend.sameType_iff_spellType_eq hshape' hshape]
    exact Eq.symm
  · rw [hspell, hdescend.sameType_iff_spellType_eq hshape' hshape'',
      hdescend.sameType_iff_spellType_eq hshape hshape'']
    exact Eq.trans
  · refine ⟨_, _, TypingError.message_mismatch ha hb pos, hspelled hshape, hspelled hshape',
      fun hdiffers => ?_⟩
    rw [← Bool.not_eq_true, hspell] at hdiffers
    exact hdiffers

namespace Session

/-- Two function types around the integer type, and one around each of them. -/
def functionTypes : Session .constant :=
  ⟨(((((CompilationUnit.new .constant).addFunctionType BaseType.int32.typeId).2.addFunctionType
    BaseType.int32.typeId).2.addFunctionType ⟨4⟩).2.addFunctionType ⟨5⟩).2, [], []⟩

theorem functionTypes_operations : Operations (new .constant) functionTypes :=
  (((Relation.ReflTransGen.single
    (.addFunctionType (new .constant) BaseType.int32.typeId (by decide))).tail
    (.addFunctionType _ BaseType.int32.typeId (by decide))).tail
    (.addFunctionType _ ⟨4⟩ (by decide))).tail (.addFunctionType _ ⟨5⟩ (by decide))

theorem types_equal_iff_spelled_alike_functionTypes :
    Operations (new .constant) functionTypes ∧ functionTypes.unit.HasType ⟨6⟩ ∧
    functionTypes.unit.HasType ⟨7⟩ ∧ functionTypes.unit.HasType ⟨5⟩ ∧
    functionTypes.unit.sameType ⟨6⟩ ⟨7⟩ = true ∧
    functionTypes.unit.spellType ⟨6⟩ = functionTypes.unit.spellType ⟨7⟩ ∧
    functionTypes.unit.sameType ⟨6⟩ ⟨5⟩ = false ∧
    functionTypes.unit.spellType ⟨6⟩ ≠ functionTypes.unit.spellType ⟨5⟩ := by
  have hsame : functionTypes.unit.sameType ⟨6⟩ ⟨7⟩ = true := by decide +kernel
  have hdiffers : functionTypes.unit.sameType ⟨6⟩ ⟨5⟩ = false := by decide +kernel
  have hfirst : functionTypes.unit.HasType ⟨6⟩ := by decide
  have hsecond : functionTypes.unit.HasType ⟨7⟩ := by decide
  have hinner : functionTypes.unit.HasType ⟨5⟩ := by decide
  obtain ⟨-, -, -, -, -, -, hspelled, -⟩ :=
    types_equal_iff_spelled_alike functionTypes_operations hfirst hsecond hinner
  obtain ⟨-, -, -, -, -, -, hother, -⟩ :=
    types_equal_iff_spelled_alike functionTypes_operations hfirst hinner hsecond
  refine ⟨functionTypes_operations, hfirst, hsecond, hinner, hsame, hspelled.mp hsame, hdiffers, ?_⟩
  rw [Ne, ← hother, hdiffers]
  exact Bool.false_ne_true

end Session

end FrontEnd
