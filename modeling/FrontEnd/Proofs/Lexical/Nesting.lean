import FrontEnd.Proofs.Lexical.Faults

/-! # Nesting of comments

The part of a block comment that is read takes its openings and closings as they come, so it leads
from one number of enclosing comments to another. -/

namespace FrontEnd

open String (utf8EncodeChar)

namespace LexicalGrammar

/-- A text in front of some bytes, inside of a comment, leads from so many enclosing comments to
so many others. -/
inductive Nests (after : List UInt8) : (first : Nat) → List Char → (last : Nat) → Prop where
  | here (enclosing) : Nests after enclosing [] enclosing
  | leave {enclosing text last} : Nests after enclosing text last →
      Nests after (enclosing + 1) ('*' :: '/' :: text) last
  | enter {enclosing text last} : Nests after (enclosing + 1) text last →
      Nests after enclosing ('/' :: '*' :: text) last
  | character {enclosing text last} (char : Char) (hzero : char ≠ '\x00')
      (hopening : ¬ opening <+: encode (char :: text) ++ after)
      (hclosing : ¬ closing <+: encode (char :: text) ++ after) :
      Nests after enclosing text last → Nests after enclosing (char :: text) last

variable {after : List UInt8} {enclosing last : Nat} {text : List Char}

theorem StaysInBlock.exists_nests (h : StaysInBlock after enclosing text) :
    ∃ last, Nests after enclosing text last := by
  induction h with
  | here enclosing => exact ⟨enclosing, .here enclosing⟩
  | leave _ ih => exact ih.imp fun _ => .leave
  | enter _ ih => exact ih.imp fun _ => .enter
  | character char hzero hopening hclosing _ ih =>
      exact ih.imp fun _ => .character char hzero hopening hclosing

/-- A comment leads to where no other one is around, and its last closing ends it. -/
theorem InBlock.exists_nests {bytes : List UInt8} (h : InBlock enclosing bytes)
    (after : List UInt8) :
    ∃ text, bytes = encode text ++ closing ∧ Nests (closing ++ after) enclosing text 0 := by
  induction h with
  | close => exact ⟨[], rfl, .here 0⟩
  | leave _ ih =>
      obtain ⟨text, rfl, hnests⟩ := ih
      exact ⟨'*' :: '/' :: text, rfl, .leave hnests⟩
  | enter _ ih =>
      obtain ⟨text, rfl, hnests⟩ := ih
      exact ⟨'/' :: '*' :: text, rfl, .enter hnests⟩
  | character char hzero hopening hclosing hrest ih =>
      have hlength := Comment.two_le_length_of_inBlock
        (.character char hzero hopening hclosing hrest)
      rw [opening, ← Comment.pair_prefix_iff hlength after] at hopening
      rw [closing, ← Comment.pair_prefix_iff hlength after] at hclosing
      obtain ⟨text, rfl, hnests⟩ := ih
      refine ⟨char :: text, (List.append_assoc _ _ _).symm, .character char hzero ?_ ?_ hnests⟩
      · simpa [Comment.encode_cons, opening] using hopening
      · simpa [Comment.encode_cons, closing] using hclosing

/-- A line feed in a comment is a character of it. -/
theorem Nests.of_lineFeed (h : Nests after enclosing ('\n' :: text) last) :
    Nests after enclosing text last := by
  cases h with
  | character _ _ _ _ hrest => exact hrest

end LexicalGrammar

end FrontEnd
