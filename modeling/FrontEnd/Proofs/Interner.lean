import FrontEnd.Interner
import FrontEnd.Proofs.OrderedMap.Insertion

/-! # Names and their texts

An interner is a list of distinct texts, and the name of a text is its place in that list.
Interning keeps the list or appends to it, so a name never changes its text. -/

namespace FrontEnd

/-- All texts collide, and all names do. -/
def Hasher.constant : Hasher := ⟨fun _ => 0, fun _ => 0⟩

namespace Interner

variable {hash : String → UInt32}

def WellFormed (names : Interner hash) : Prop := names.texts.WellFormed

def noNames : Interner Hasher.constant.text := empty

theorem empty_wellFormed : (empty : Interner hash).WellFormed := OrderedMap.empty_wellFormed

theorem noNames_wellFormed : noNames.WellFormed := empty_wellFormed

theorem toList_eq_keys (names : Interner hash) : names.toList = names.texts.keys := by
  simp [toList, OrderedMap.toList, OrderedMap.keys]

@[simp] theorem length_toList (names : Interner hash) : names.toList.length = names.size := by
  rw [toList_eq_keys, OrderedMap.length_keys, size]

theorem text?_eq_getElem? (names : Interner hash) (name : Name) :
    names.text? name = names.toList[name.index]? := by
  simp [text?, OrderedMap.key?, toList_eq_keys, OrderedMap.keys]

theorem WellFormed.nodup {names : Interner hash} (h : names.WellFormed) : names.toList.Nodup := by
  rw [toList_eq_keys]
  exact OrderedMap.WellFormed.nodup h

/-- Equal texts have equal names. -/
theorem WellFormed.name_unique {names : Interner hash} (h : names.WellFormed) {a b : Name}
    {text : String} (ha : names.text? a = some text) (hb : names.text? b = some text) : a = b := by
  rw [text?_eq_getElem?] at ha hb
  obtain ⟨hlt, -⟩ := List.getElem?_eq_some_iff.mp ha
  have hindex : a.index = b.index := (List.getElem?_inj hlt h.nodup).mp (ha.trans hb.symm)
  cases a
  cases b
  exact congrArg Name.mk hindex

/-! ## Looking up -/

theorem lookup_eq_ok_iff {names : Interner hash} {name : Name} {text : String} :
    names.lookup name = .ok text ↔ names.text? name = some text := by
  unfold lookup
  cases names.text? name <;> simp

/-- A name has a text exactly if the interner is as large as its number. -/
theorem lookup_eq_error_iff {names : Interner hash} {name : Name} {breach : Breach} :
    names.lookup name = .error breach ↔
      breach = .foreignName name ∧ names.size < name.number := by
  have hnone : names.text? name = none ↔ names.size < name.number := by
    rw [text?_eq_getElem?, List.getElem?_eq_none_iff, length_toList, Name.number, Nat.lt_succ_iff]
  rw [← hnone, lookup]
  cases names.text? name <;> simp [eq_comm]

/-- A text is found under the name that it is the text of. -/
theorem WellFormed.find?_eq_some_iff {names : Interner hash} (h : names.WellFormed) {text : String}
    {name : Name} : names.find? text = some name ↔ names.text? name = some text := by
  by_cases hmem : text ∈ names.texts.keys
  · obtain ⟨i, hi, rfl⟩ := OrderedMap.exists_getElem_of_mem_keys hmem
    have htext : names.text? ⟨i⟩ = some names.texts.entries[i].key := by
      simp [text?, OrderedMap.key?, hi]
    have hfound : names.find? names.texts.entries[i].key = some ⟨i⟩ := by
      simp [find?, OrderedMap.find?, OrderedMap.WellFormed.probe_of_getElem h hi]
    rw [hfound, Option.some.injEq]
    exact ⟨fun heq => heq ▸ htext, fun hname => h.name_unique htext hname⟩
  · obtain ⟨steps, -, hprobe⟩ := OrderedMap.WellFormed.probe_of_notMem h hmem
    refine iff_of_false (by simp [find?, OrderedMap.find?, hprobe]) fun hname => hmem ?_
    rw [text?_eq_getElem?] at hname
    rw [← toList_eq_keys]
    exact List.mem_of_getElem? hname

/-! ## Interning -/

/-- Interning a text leaves a list that holds it, with the name as its place. -/
structure Interned (names : Interner hash) (text : String) (name : Name) (after : Interner hash) :
    Prop where
  wellFormed : after.WellFormed
  text_eq : after.text? name = some text
  toList_eq : after.toList = if text ∈ names.toList then names.toList else names.toList ++ [text]

theorem size_intern (names : Interner hash) (text : String) :
    names.size ≤ (names.intern text).2.size ∧ (names.intern text).2.size ≤ names.size + 1 :=
  names.texts.size_findOrInsert text fun _ => ⟨⟩

/-- An interner stays good as long as its names have 32 bits. -/
theorem WellFormed.interned {names : Interner hash} (h : names.WellFormed) (text : String)
    (hroom : (names.intern text).2.size < 2 ^ 32) :
    Interned names text (names.intern text).1 (names.intern text).2 := by
  by_cases hmem : text ∈ names.texts.keys
  · obtain ⟨i, hi, rfl⟩ := OrderedMap.exists_getElem_of_mem_keys hmem
    have hfound := OrderedMap.WellFormed.findOrInsert_of_getElem h hi fun _ => ⟨⟩
    simp only [Interner.intern, hfound]
    refine ⟨OrderedMap.WellFormed.makeRoom h, ?_, ?_⟩
    · simp [text?, OrderedMap.key?, hi]
    · simp only [toList_eq_keys, OrderedMap.keys_makeRoom, hmem, if_true]
  · have hsize : (names.intern text).2.size = names.size + 1 :=
      OrderedMap.WellFormed.size_findOrInsert_of_notMem h hmem fun _ => ⟨⟩
    obtain ⟨map, hadded, hmap, hlist⟩ :=
      OrderedMap.WellFormed.findOrInsert_of_notMem h hmem (hsize ▸ hroom) fun _ => ⟨⟩
    have hlist' : (⟨map⟩ : Interner hash).toList = names.toList ++ [text] := by
      simp [toList, hlist]
    simp only [Interner.intern, hadded]
    refine ⟨hmap, ?_, ?_⟩
    · rw [text?_eq_getElem?, hlist']
      have hsize : names.texts.size = names.toList.length := by simp [size]
      rw [hsize, List.getElem?_concat_length]
    · rw [toList_eq_keys names] at hlist' ⊢
      rw [hlist', if_neg hmem]

theorem WellFormed.intern {names : Interner hash} (h : names.WellFormed) (text : String)
    (hroom : names.size + 1 < 2 ^ 32) :
    Interned names text (names.intern text).1 (names.intern text).2 :=
  h.interned text (Nat.lt_of_le_of_lt (names.size_intern text).2 hroom)

/-! ## Growth -/

/-- Names are added and never taken away. -/
def Extends (names after : Interner hash) : Prop := names.toList <+: after.toList

theorem Extends.refl (names : Interner hash) : names.Extends names := List.prefix_rfl

theorem Extends.trans {a b c : Interner hash} (hab : a.Extends b) (hbc : b.Extends c) :
    a.Extends c :=
  List.IsPrefix.trans hab hbc

theorem Extends.text? {names after : Interner hash} (h : names.Extends after) {name : Name}
    {text : String} (htext : names.text? name = some text) : after.text? name = some text := by
  rw [text?_eq_getElem?] at htext ⊢
  obtain ⟨added, hadded⟩ := h
  rw [← hadded, List.getElem?_append_left (List.getElem?_eq_some_iff.mp htext).1, htext]

theorem Interned.extends {names after : Interner hash} {text : String} {name : Name}
    (h : Interned names text name after) : names.Extends after := by
  unfold Extends
  rw [h.toList_eq]
  split
  · exact List.prefix_rfl
  · exact List.prefix_append _ _

theorem Interned.size_le {names after : Interner hash} {text : String} {name : Name}
    (h : Interned names text name after) : after.size ≤ names.size + 1 := by
  rw [← length_toList, h.toList_eq, ← length_toList]
  split <;> simp

/-! ## Texts that are interned one after the other -/

section Distinct

variable {α : Type} [BEq α] [LawfulBEq α] {xs ys : List α}

theorem removeAll_congr (h : ∀ x, x ∈ xs ↔ x ∈ ys) (zs : List α) :
    zs.removeAll xs = zs.removeAll ys := by
  simp only [List.removeAll, List.elem_eq_mem, h]

theorem eraseDups_of_nodup (h : xs.Nodup) : xs.eraseDups = xs := by
  induction xs with
  | nil => rfl
  | cons x xs ih =>
      obtain ⟨hx, hxs⟩ := List.nodup_cons.mp h
      have hother : xs.filter (fun y => !y == x) = xs :=
        List.filter_eq_self.mpr fun y hy => by simpa using ne_of_mem_of_not_mem hy hx
      rw [List.eraseDups_cons, hother, ih hxs]

end Distinct

/-- The texts of an interner come first, and then each other one where it was met first. -/
structure Collects (names : Interner hash) (texts : List String) (after : Interner hash) :
    Prop where
  wellFormed : after.WellFormed
  toList_eq : after.toList = (names.toList ++ texts).eraseDups

theorem WellFormed.collects_nil {names : Interner hash} (h : names.WellFormed) :
    names.Collects [] names :=
  ⟨h, by rw [List.append_nil, eraseDups_of_nodup h.nodup]⟩

theorem Collects.trans {a b c : Interner hash} {texts more : List String} (hab : a.Collects texts b)
    (hbc : b.Collects more c) : a.Collects (texts ++ more) c where
  wellFormed := hbc.wellFormed
  toList_eq := by
    have hmem : ∀ text, text ∈ b.toList ↔ text ∈ a.toList ++ texts := fun text => by
      rw [hab.toList_eq, List.mem_eraseDups]
    calc c.toList = (b.toList ++ more).eraseDups := hbc.toList_eq
      _ = b.toList ++ (more.removeAll b.toList).eraseDups := by
          rw [List.eraseDups_append, eraseDups_of_nodup hab.wellFormed.nodup]
      _ = (a.toList ++ texts).eraseDups ++ (more.removeAll (a.toList ++ texts)).eraseDups := by
          rw [removeAll_congr hmem, hab.toList_eq]
      _ = (a.toList ++ (texts ++ more)).eraseDups := by
          rw [← List.eraseDups_append, List.append_assoc]

theorem Collects.extends {names after : Interner hash} {texts : List String} (h : names.WellFormed)
    (hafter : names.Collects texts after) : names.Extends after := by
  rw [Extends, hafter.toList_eq, List.eraseDups_append, eraseDups_of_nodup h.nodup]
  exact List.prefix_append _ _

theorem Interned.collects {names after : Interner hash} {text : String} {name : Name}
    (h : names.WellFormed) (hafter : Interned names text name after) :
    names.Collects [text] after where
  wellFormed := hafter.wellFormed
  toList_eq := by
    rw [hafter.toList_eq, List.eraseDups_append, eraseDups_of_nodup h.nodup]
    by_cases hmem : text ∈ names.toList
    · simp [hmem, List.removeAll]
    · simp [hmem, List.removeAll, eraseDups_of_nodup]

end Interner

end FrontEnd
