import FrontEnd.IntegerValue
import FrontEnd.Text.Quoted
import Mathlib.Data.List.Basic

/-! # Texts that show where they end

Where a text is one of several that may stand somewhere, and something else comes after it, the
reader can tell which one it is and where the rest begins. -/

namespace FrontEnd

/-- The text of a value, with anything after it, is the text of no other value. -/
def SelfDelimiting {α : Type} (text : α → String) : Prop :=
  ∀ {a b : α} {after after' : List Char},
    (text a).toList ++ after = (text b).toList ++ after' → a = b ∧ after = after'

/-- A text that lies within a class of characters ends before the first one outside of it. -/
theorem append_inj_of_head? {p : Char → Bool} {xs ys after after' : List Char}
    (hxs : xs.all p = true) (hys : ys.all p = true) (hafter : after.head?.all (!p ·) = true)
    (hafter' : after'.head?.all (!p ·) = true) (h : xs ++ after = ys ++ after') :
    xs = ys ∧ after = after' := by
  have hstop : ∀ {rest : List Char}, rest.head?.all (!p ·) = true → rest.takeWhile p = [] := by
    intro rest hrest
    cases rest with
    | nil => rfl
    | cons first rest => exact List.takeWhile_cons_of_neg (by simpa using hrest)
  have htake := congrArg (List.takeWhile p) h
  rw [List.takeWhile_append_of_pos (List.all_eq_true.mp hxs), hstop hafter,
    List.takeWhile_append_of_pos (List.all_eq_true.mp hys), hstop hafter',
    List.append_nil, List.append_nil] at htake
  subst htake
  exact ⟨rfl, List.append_cancel_left h⟩

namespace Text

/-! ## Numbers -/

theorem isDigit_toString (value : Nat) : (toString value).toList.all Char.isDigit = true := by
  rw [Nat.toString_eq_ofList_toDigits, String.toList_ofList, List.all_eq_true]
  exact fun c hc => Nat.isDigit_of_mem_toDigits (by decide) (by decide) hc

theorem toString_injective {m n : Nat} (h : (toString m).toList = (toString n).toList) :
    m = n := by
  have hvalue := congrArg (Nat.ofDigitChars 10 · 0) h
  simpa [Nat.toString_eq_ofList_toDigits] using hvalue

/-- A number ends before anything but a digit. -/
theorem toString_append_inj {m n : Nat} {after after' : List Char}
    (hafter : after.head?.all (!Char.isDigit ·) = true)
    (hafter' : after'.head?.all (!Char.isDigit ·) = true)
    (h : (toString m).toList ++ after = (toString n).toList ++ after') :
    m = n ∧ after = after' := by
  obtain ⟨hdigits, hrest⟩ :=
    append_inj_of_head? (isDigit_toString m) (isDigit_toString n) hafter hafter' h
  exact ⟨toString_injective hdigits, hrest⟩

/-- How the value of a literal is shown. An oversized one has no number. -/
def number : Option Nat → String
  | some value => toString value
  | none => "<bigint>"

/-- A number starts with a digit. -/
theorem toString_append_ne (value : Nat) {c : Char} (hc : c.isDigit = false)
    {after rest : List Char} : (toString value).toList ++ after ≠ c :: rest := by
  intro h
  have hdigits := isDigit_toString value
  cases hchars : (toString value).toList with
  | nil =>
      rw [Nat.toString_eq_ofList_toDigits, String.toList_ofList] at hchars
      exact Nat.toDigits_ne_nil hchars
  | cons first chars =>
      rw [hchars, List.cons_append, List.cons.injEq] at h
      rw [hchars, h.1, List.all_cons, hc] at hdigits
      cases hdigits

/-- The value of a literal ends before anything but a digit. -/
theorem number_append_inj {m? n? : Option Nat} {after after' : List Char}
    (hafter : after.head?.all (!Char.isDigit ·) = true)
    (hafter' : after'.head?.all (!Char.isDigit ·) = true)
    (h : (number m?).toList ++ after = (number n?).toList ++ after') :
    m? = n? ∧ after = after' := by
  cases m? with
  | none =>
      cases n? with
      | none => exact ⟨rfl, List.append_cancel_left h⟩
      | some n => exact absurd h.symm (toString_append_ne n rfl)
  | some m =>
      cases n? with
      | none => exact absurd h (toString_append_ne m rfl)
      | some n =>
          obtain ⟨rfl, hrest⟩ := toString_append_inj hafter hafter' h
          exact ⟨rfl, hrest⟩

theorem digitChar_injective : ∀ m < 16, ∀ n < 16, Nat.digitChar m = Nat.digitChar n → m = n := by
  decide

theorem digitChar_ne_brace : ∀ n < 16, (Nat.digitChar n != '\x7d') = true := by decide

/-- The last digit of a hexadecimal number, and those before it. -/
theorem exists_toDigits_eq (n : Nat) : ∃ front,
    Nat.toDigits 16 n = front ++ [Nat.digitChar (n % 16)] ∧
      (front = [] ∧ n / 16 = 0 ∨ front = Nat.toDigits 16 (n / 16) ∧ 0 < n / 16) := by
  rw [Nat.toDigits_eq_if (by decide)]
  split
  · rename_i hlt
    exact ⟨[], by rw [Nat.mod_eq_of_lt hlt, List.nil_append], .inl ⟨rfl, by omega⟩⟩
  · exact ⟨_, rfl, .inr ⟨rfl, by omega⟩⟩

theorem toDigits_injective {m n : Nat} (h : Nat.toDigits 16 m = Nat.toDigits 16 n) : m = n := by
  induction m using Nat.strongRecOn generalizing n with
  | _ m ih =>
      obtain ⟨front, hm, hfront⟩ := exists_toDigits_eq m
      obtain ⟨front', hn, hfront'⟩ := exists_toDigits_eq n
      rw [hm, hn] at h
      obtain ⟨rfl, hlast⟩ := List.append_inj' h rfl
      have hmod := digitChar_injective _ (Nat.mod_lt _ (by decide)) _ (Nat.mod_lt _ (by decide))
        (List.singleton_inj.mp hlast)
      have hdiv : m / 16 = n / 16 := by
        rcases hfront with ⟨rfl, hzero⟩ | ⟨rfl, hpos⟩ <;>
          rcases hfront' with ⟨hempty, hzero'⟩ | ⟨heq, -⟩
        · rw [hzero, hzero']
        · exact absurd heq.symm Nat.toDigits_ne_nil
        · exact absurd hempty Nat.toDigits_ne_nil
        · exact ih _ (by omega) heq
      omega

theorem toDigits_ne_brace (n : Nat) : (Nat.toDigits 16 n).all (· != '\x7d') = true := by
  induction n using Nat.strongRecOn with
  | _ n ih =>
      obtain ⟨front, hn, hfront⟩ := exists_toDigits_eq n
      have hlast := digitChar_ne_brace _ (Nat.mod_lt n (by decide))
      rw [hn, List.all_append, List.all_cons, hlast]
      rcases hfront with ⟨rfl, -⟩ | ⟨rfl, hpos⟩
      · rfl
      · rw [ih _ (by omega)]
        rfl

/-! ## Quoted text -/

/-- The characters that are escaped by one other character, each with that. -/
def shortEscapes : List (Char × Char) :=
  [('"', '"'), ('\\', '\\'), ('\t', 't'), ('\n', 'n'), ('\r', 'r'), ('\x00', '0')]

/-- The ways in which a character stands between quotes. -/
inductive Escaped (c : Char) : List Char → Prop where
  | itself : c ≠ '\\' → c ≠ '"' → Escaped c [c]
  | short {mark : Char} : (c, mark) ∈ shortEscapes → Escaped c ['\\', mark]
  | code : Escaped c ('\\' :: 'u' :: '\x7b' :: (Nat.toDigits 16 c.toNat ++ ['\x7d']))

theorem escape_escaped (c : Char) : Escaped c (escape c) := by
  unfold escape
  split_ifs with hquote hslash htab hfeed hreturn hzero halone
  · exact .short (by simp [hquote, shortEscapes])
  · exact .short (by simp [hslash, shortEscapes])
  · exact .short (by simp [htab, shortEscapes])
  · exact .short (by simp [hfeed, shortEscapes])
  · exact .short (by simp [hreturn, shortEscapes])
  · have hc : c = '\x00' := Char.toNat_inj.mp hzero
    exact .short (by simp [hc, shortEscapes])
  · exact .itself hslash hquote
  · exact .code

theorem shortEscapes_injective : ∀ p ∈ shortEscapes, ∀ q ∈ shortEscapes, p.2 = q.2 → p.1 = q.1 := by
  decide

theorem shortEscapes_ne_u : ∀ p ∈ shortEscapes, p.2 ≠ 'u' := by decide

/-- An escape shows where it ends, and no escape starts with a quote. -/
theorem Escaped.unique {c d : Char} {xs ys after after' : List Char} (hc : Escaped c xs)
    (hd : Escaped d ys) (h : xs ++ after = ys ++ after') : c = d ∧ after = after' := by
  cases hc with
  | itself hslash _ =>
      cases hd with
      | itself _ _ => exact List.cons.inj h
      | short _ => exact absurd (List.cons.inj h).1 hslash
      | code => exact absurd (List.cons.inj h).1 hslash
  | short hmark =>
      cases hd with
      | itself hslash _ => exact absurd (List.cons.inj h).1.symm hslash
      | short hmark' =>
          obtain ⟨hmarks, hafter⟩ := List.cons.inj (List.cons.inj h).2
          exact ⟨shortEscapes_injective _ hmark _ hmark' hmarks, hafter⟩
      | code => exact absurd (List.cons.inj (List.cons.inj h).2).1 (shortEscapes_ne_u _ hmark)
  | code =>
      cases hd with
      | itself hslash _ => exact absurd (List.cons.inj h).1.symm hslash
      | short hmark =>
          exact absurd (List.cons.inj (List.cons.inj h).2).1.symm (shortEscapes_ne_u _ hmark)
      | code =>
          obtain ⟨-, -, -, h⟩ : _ ∧ _ ∧ _ ∧ _ := by
            simpa only [List.cons_append, List.cons.injEq, List.append_assoc] using h
          obtain ⟨hdigits, hafter⟩ := append_inj_of_head? (toDigits_ne_brace _)
            (toDigits_ne_brace _) rfl rfl h
          exact ⟨Char.toNat_inj.mp (toDigits_injective hdigits), (List.cons.inj hafter).2⟩

theorem Escaped.ne_quote {c : Char} {xs after rest : List Char} (hc : Escaped c xs) :
    xs ++ after ≠ '"' :: rest := by
  intro h
  cases hc with
  | itself _ hquote => exact hquote (List.cons.inj h).1
  | short _ => exact absurd (List.cons.inj h).1 (by decide)
  | code => exact absurd (List.cons.inj h).1 (by decide)

/-- Escapes before a quote are those of one text. -/
theorem flatMap_escape_inj {cs ds after after' : List Char}
    (h : cs.flatMap escape ++ '"' :: after = ds.flatMap escape ++ '"' :: after') :
    cs = ds ∧ after = after' := by
  induction cs generalizing ds with
  | nil =>
      cases ds with
      | nil => exact ⟨rfl, (List.cons.inj h).2⟩
      | cons d ds =>
          rw [List.flatMap_cons, List.append_assoc] at h
          exact absurd h.symm (escape_escaped d).ne_quote
  | cons c cs ih =>
      cases ds with
      | nil =>
          rw [List.flatMap_cons, List.append_assoc] at h
          exact absurd h (escape_escaped c).ne_quote
      | cons d ds =>
          rw [List.flatMap_cons, List.flatMap_cons, List.append_assoc, List.append_assoc] at h
          obtain ⟨rfl, hrest⟩ := (escape_escaped c).unique (escape_escaped d) h
          obtain ⟨rfl, hafter⟩ := ih hrest
          exact ⟨rfl, hafter⟩

theorem number_append_ne_quote (value? : Option Nat) (text : String) {after rest : List Char} :
    (number value?).toList ++ after ≠ (quote text).toList ++ rest := by
  rw [quote, String.toList_ofList, List.cons_append]
  cases value? with
  | none => exact fun h => absurd (List.cons.inj h).1 (by decide)
  | some value => exact toString_append_ne value rfl

/-- Quoted text ends at the quote that closes it, and has all characters of the text. -/
theorem quote_selfDelimiting : SelfDelimiting quote := by
  intro text text' after after' h
  simp only [quote, String.toList_ofList, List.cons_append, List.append_assoc,
    List.cons.injEq, true_and] at h
  obtain ⟨hchars, hafter⟩ := flatMap_escape_inj h
  exact ⟨String.toList_inj.mp hchars, hafter⟩

end Text

theorem IntegerValue.text_eq_number {ν : Type} (value : IntegerValue ν) :
    value.text = Text.number value.small? := by
  cases value <;> rfl

end FrontEnd
