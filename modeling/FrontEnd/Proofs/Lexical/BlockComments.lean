import FrontEnd.Proofs.Lexical.CommentMarks
import FrontEnd.Proofs.Lexical.Onward
import FrontEnd.Proofs.Lexical.Positions
import FrontEnd.Proofs.Scanner.Comments

/-! # Block comments nest

A block comment ends where its closings level its openings for the first time. Its text is
well-formed up to there, or else its first fault is the error of the source. -/

namespace FrontEnd

open String (utf8EncodeChar)
open LexicalGrammar

namespace Comment

/-- A well-formed text that goes on over a fault of a comment has a zero byte there. -/
theorem zero_mem_of_prefix {text covered : List Char} {after : List UInt8} {kind : LexicalFault}
    (hwidth : characterWidth after = .error kind)
    (hstarts : encode covered <+: encode text ++ after)
    (hlength : (encode text).length < (encode covered).length) : '\x00' ∈ covered := by
  induction text generalizing covered with
  | nil =>
      cases covered with
      | nil => cases hlength
      | cons char covered =>
          obtain ⟨more, hmore⟩ := hstarts
          rw [encode_cons, List.append_assoc, encode_nil, List.nil_append] at hmore
          obtain ⟨-, hnone⟩ | ⟨-, later, hlater⟩ := characterWidth_eq_error hwidth
          · exact absurd ⟨_, hmore⟩ (hnone char)
          · obtain ⟨rfl, -⟩ := encode_append_inj (hmore.trans hlater.symm)
            exact List.mem_cons_self
  | cons first text ih =>
      cases covered with
      | nil => cases hlength
      | cons char covered =>
          obtain ⟨more, hmore⟩ := hstarts
          rw [encode_cons, encode_cons, List.append_assoc, List.append_assoc] at hmore
          obtain ⟨rfl, hrest⟩ := encode_append_inj hmore
          rw [encode_cons, encode_cons, List.length_append, List.length_append] at hlength
          exact List.mem_cons_of_mem _ (ih ⟨more, hrest⟩ (by omega))

theorem zero_mem_of_extent {text covered : List Char} {after : List UInt8} {kind : LexicalFault}
    (h : StaysInBlock after 0 text) (hafter : after ≠ [])
    (hwidth : characterWidth after = .error kind)
    (hextent : Extent (opening ++ encode text ++ after) (encode covered)) : '\x00' ∈ covered := by
  obtain ⟨hlength, hstarts⟩ := length_lt_of_extent h hafter hextent
  have hopened : opening ++ encode text = encode ('/' :: '*' :: text) := rfl
  rw [hopened] at hlength hstarts
  exact zero_mem_of_prefix hwidth hstarts hlength

/-- A well-formed text up to a first closing that levels is a comment. -/
theorem inBlock_of_isLeast {rest : List UInt8} {stop : Nat} {covered : List Char}
    (hleast : IsLeast {stop | Levels 0 (marks 0 (opening ++ rest)) stop} stop)
    (hcovered : (opening ++ rest).take stop = encode covered) (hzero : '\x00' ∉ covered) :
    ∃ text, encode covered = opening ++ text ∧ InBlock 0 text ∧
      rest = text ++ (opening ++ rest).drop stop := by
  have hextent : Extent (opening ++ rest) (encode covered) := .inl ⟨stop, hleast, hcovered.symm⟩
  cases hread : blockEnd 0 2 rest with
  | ok length =>
      obtain ⟨text, after, rfl, hinside, -⟩ := blockEnd_eq_ok_iff.mp hread
      rw [← List.append_assoc] at hextent
      have hcut := extent_of_inBlock hinside hextent
      refine ⟨text, hcut, hinside, ?_⟩
      have hdrop := List.take_append_drop stop (opening ++ (text ++ after))
      rw [hcovered, hcut, List.append_assoc] at hdrop
      exact (List.append_cancel_left hdrop).symm
  | error fault =>
      obtain ⟨text, after, rfl, hstays, hcause, -, -⟩ := blockEnd_eq_error hread
      rcases hcause with ⟨rfl, -⟩ | ⟨hafter, hwidth⟩
      · rw [List.append_nil] at hleast
        exact absurd hleast.1 (not_levels_of_unclosed hstays stop)
      · rw [← List.append_assoc] at hextent
        exact absurd (zero_mem_of_extent hstays hafter hwidth hextent) hzero

/-- A well-formed text without a closing that levels is a comment that is not closed. -/
theorem unclosed_of_not_levels {rest : List UInt8} {covered : List Char}
    (hnone : ∀ stop, ¬ Levels 0 (marks 0 (opening ++ rest)) stop)
    (hcovered : opening ++ rest = encode covered) (hzero : '\x00' ∉ covered) :
    ∃ text fault, covered = '/' :: '*' :: text ∧ rest = encode text ++ [] ∧
      blockEnd 0 2 rest = .error fault ∧ fault.kind = .unclosedBlockComment ∧
      fault.read = 2 + (encode text).length ∧ fault.anchor = .readEnd := by
  cases hread : blockEnd 0 2 rest with
  | ok length =>
      obtain ⟨text, after, rfl, hinside, -⟩ := blockEnd_eq_ok_iff.mp hread
      have hleast := isLeast_of_inBlock hinside after
      rw [List.append_assoc] at hleast
      exact absurd hleast.1 (hnone _)
  | error fault =>
      obtain ⟨text, after, rfl, hstays, hcause, hlength, hanchor⟩ := blockEnd_eq_error hread
      rcases hcause with ⟨rfl, hkind⟩ | ⟨hafter, hwidth⟩
      · refine ⟨text, fault, ?_, rfl, rfl, hkind, hlength, hanchor⟩
        rw [List.append_nil] at hcovered
        exact encode_injective hcovered.symm
      · have hextent : Extent (opening ++ encode text ++ after) (encode covered) := by
          rw [List.append_assoc]
          exact .inr ⟨hnone, hcovered.symm⟩
        exact absurd (zero_mem_of_extent hstays hafter hwidth hextent) hzero

/-- In a text that is not well-formed, a comment meets the first fault. -/
theorem fault_of_extent {rest inside : List UInt8} (hextent : Extent (opening ++ rest) inside)
    (hfault : ∀ text, inside = encode text → '\x00' ∈ text) :
    ∃ text after fault, rest = encode text ++ after ∧ '\x00' ∉ text ∧
      (opening ++ encode text).length < inside.length ∧
      (IllFormed after ∧ fault.kind = .badEncoding ∨
        utf8EncodeChar '\x00' <+: after ∧ fault.kind = .unexpectedCharacter 0) ∧
      blockEnd 0 2 rest = .error fault ∧ fault.read = 2 + (encode text).length ∧
      fault.anchor = .readEnd := by
  cases hread : blockEnd 0 2 rest with
  | ok length =>
      obtain ⟨text, after, rfl, hinside, -⟩ := blockEnd_eq_ok_iff.mp hread
      rw [← List.append_assoc] at hextent
      obtain ⟨chars, hchars, hnests⟩ := hinside.exists_nests after
      have hzero := hnests.zero_not_mem
      refine absurd (hfault ('/' :: '*' :: (chars ++ ['*', '/'])) ?_) (by simpa using hzero)
      change inside = opening ++ encode (chars ++ ['*', '/'])
      rw [extent_of_inBlock hinside hextent, hchars, encode_append]
      rfl
  | error fault =>
      obtain ⟨text, after, rfl, hstays, hcause, hlength, hanchor⟩ := blockEnd_eq_error hread
      obtain ⟨last, hnests⟩ := hstays.exists_nests
      have hzero := hnests.zero_not_mem
      rw [← List.append_assoc] at hextent
      rcases hcause with ⟨rfl, -⟩ | ⟨hafter, hwidth⟩
      · refine absurd (hfault ('/' :: '*' :: text) ?_) (by simpa using hzero)
        obtain ⟨stop, hstop, -⟩ | ⟨-, rfl⟩ := hextent
        · rw [List.append_nil] at hstop
          exact absurd hstop.1 (not_levels_of_unclosed hstays stop)
        · rw [List.append_nil]
          rfl
      · refine ⟨text, after, fault, rfl, hzero, (length_lt_of_extent hstays hafter hextent).1, ?_,
          rfl, hlength, hanchor⟩
        obtain ⟨hkind, hnone⟩ | ⟨hkind, hstarts⟩ := characterWidth_eq_error hwidth
        · exact .inl ⟨⟨hafter, hnone⟩, hkind⟩
        · exact .inr ⟨hstarts, hkind⟩

end Comment

namespace Reading

variable {config : LayoutConfig} {source rest : List UInt8} {before : List Char}
  {lexemes : List (List Char × Lexeme)}

theorem pos_layoutAfter (config : LayoutConfig) (source : List UInt8) (text : List Char) :
    (layoutAfter config source text).pos = (Position.start.afterText config.tabStop text).capped :=
  Layout.nextAll_capped rfl _

theorem layoutAfter_append {text : List Char} (h : Unsplit before text) :
    layoutAfter config source (before ++ text) =
      (layoutAfter config source before).nextAll config (Move.ofText text) := by
  rw [layoutAfter, Move.ofText_append h, Layout.nextAll_append]
  rfl

section Unlimited

variable (hlimits : config.limits = .unlimited)

include hlimits

/-- A text after another one is moved over. -/
theorem stepAll_layoutAfter {text : List Char} (h : Unsplit before text) :
    (layoutAfter config source before).stepAll config (Move.ofText text) =
      .ok (layoutAfter config source (before ++ text)) := by
  have hfirst : (first source).Within config := by
    rw [first_within_iff, hlimits]
    exact fun _ => by decide
  have hmoves := hfirst.stepAll_unlimited hlimits (Move.ofText before)
  rw [layoutAfter_append h]
  exact (hfirst.of_stepAll hmoves).2.stepAll_unlimited hlimits _

variable (hbody : body source = encode before ++ (opening ++ rest))
  (hbefore : DecomposesBetween (opening ++ rest) [] before lexemes)

include hbody hbefore

/-- Behind a block comment the reading goes on, without a lexeme of the comment. -/
theorem ofSource_of_inBlock {text after : List UInt8} (h : InBlock 0 text)
    (hrest : rest = text ++ after) {inside : List Char}
    (hinside : opening ++ text = encode inside) :
    ofSource config source =
      (onward config (layoutAfter config source (before ++ inside)) after).behind
        (placing config (first source) lexemes) := by
  have hpiece : IsPiece (encode inside) after none := by
    rw [← hinside]
    exact ⟨.blockComment after h, fun hsplit => by cases hsplit.1⟩
  have hunsplit : Unsplit before inside := by
    rintro ⟨-, hhead⟩
    have hbyte : (encode inside).head? = some 0x0A := (head?_encode_eq_iff (by decide)).mpr hhead
    rw [← hinside] at hbyte
    cases hbyte
  have hmoved : (layoutAfter config source before).across config (encode inside) =
      .ok (layoutAfter config source (before ++ inside)) := by
    rw [Layout.across_encode]
    exact stepAll_layoutAfter hlimits hunsplit
  rw [ofSource_eq_behind hlimits hbody hbefore, hrest, ← List.append_assoc, hinside,
    onward_of_across hpiece hmoved]
  rfl

/-- The fault of a block comment is the error of the source. -/
theorem outcome_of_blockEnd {text : List Char} {after : List UInt8} {fault : ReadFault}
    (hrest : rest = encode text ++ after) (hfault : Comment.blockEnd 0 2 rest = .error fault)
    (hread : fault.read = 2 + (encode text).length) (hanchor : fault.anchor = .readEnd) :
    (ofSource config source).outcome =
      .error ⟨fault.kind, (layoutAfter config source (before ++ '/' :: '*' :: text)).pos⟩ := by
  have hfind : PieceEnd.find 0x2F (0x2A :: rest) = .error fault := by
    rw [PieceEnd.find_blockComment, hfault]
    rfl
  have htake : (opening ++ rest).take fault.read = encode ('/' :: '*' :: text) := by
    rw [hrest, hread, ← List.append_assoc]
    exact List.take_left' List.length_append
  have hunsplit : Unsplit before ('/' :: '*' :: text) := fun hsplit => absurd hsplit.2 (by simp)
  rw [ofSource_eq_behind hlimits hbody hbefore]
  change (onward config (layoutAfter config source before) (0x2F :: 0x2A :: rest)).outcome = _
  rw [onward_of_error _ hfind]
  refine (finish_fault htake _).trans ?_
  rw [stepAll_layoutAfter hlimits hunsplit, Except.bind, hanchor]

end Unlimited

end Reading

open Comment Scanner

/-- Where a block comment starts, behind pieces of a source, it takes the text up to the first
closing that levels the openings, its own included. The tokens go on right behind that closing, and
none is of the comment. Where no closing levels, well-formed text up to the end of the source is an
unclosed comment, reported at the end. Other text is refused at its first character that is
ill-formed or a zero byte.

The scanner counts the depth in a word, from one at the first opening on: it stays at one or more,
and its double within the length of the source. -/
theorem tokenize_blockComment {config : LayoutConfig} (hlimits : config.limits = .unlimited)
    {source rest : List UInt8} (hlength : source.length < countMax) {before : List Char}
    {lexemes : List (List Char × Lexeme)}
    (hbody : Reading.body source = encode before ++ (opening ++ rest))
    (hbefore : DecomposesBetween (opening ++ rest) [] before lexemes) {hash : String → UInt32}
    (names : Interner hash) :
    (∀ stop text, IsLeast {stop | Levels 0 (marks 0 (opening ++ rest)) stop} stop →
      (opening ++ rest).take stop = encode text → '\x00' ∉ text →
      tokenize config source names =
        ((Reading.onward config (Reading.layoutAfter config source (before ++ text))
            ((opening ++ rest).drop stop)).behind
          (Reading.placing config (Reading.first source) lexemes)).tokens names) ∧
    (∀ text, (∀ stop, ¬ Levels 0 (marks 0 (opening ++ rest)) stop) →
      opening ++ rest = encode text → '\x00' ∉ text →
      (tokenize config source names).1 = .error ⟨.unclosedBlockComment,
        (Position.start.afterText config.tabStop (before ++ text)).capped⟩) ∧
    (∀ inside, Extent (opening ++ rest) inside →
      (∀ text, inside = encode text → '\x00' ∈ text) →
      ∃ text after kind, opening ++ rest = encode text ++ after ∧ '\x00' ∉ text ∧
        (encode text).length < inside.length ∧
        (IllFormed after ∧ kind = .badEncoding ∨
          utf8EncodeChar '\x00' <+: after ∧ kind = .unexpectedCharacter 0) ∧
        (tokenize config source names).1 = .error ⟨kind,
          (Position.start.afterText config.tabStop (before ++ text)).capped⟩) ∧
    ∀ skipped l t depth, skipped ++ (opening ++ rest) = source →
      Visits (blockCommentRound config) (placed (skipped ++ opening) rest l) 1 t depth →
      1 ≤ depth.toNat ∧ 2 * depth.toNat ≤ source.length := by
  refine ⟨fun stop text hleast htext hzero => ?_, fun text hnone htext hzero => ?_,
    fun inside hextent hfault => ?_, fun skipped l t depth hsource hvisits => ?_⟩
  · obtain ⟨body, hinside, hblock, hrest⟩ := inBlock_of_isLeast hleast htext hzero
    rw [tokenize_eq, Reading.ofSource_of_inBlock hlimits hbody hbefore hblock hrest hinside.symm]
    rfl
  · obtain ⟨inside, fault, rfl, hrest, hread, hkind, hlength, hanchor⟩ :=
      unclosed_of_not_levels hnone htext hzero
    rw [tokenize_eq_error_iff, ← Reading.pos_layoutAfter config source, ← hkind]
    exact Reading.outcome_of_blockEnd hlimits hbody hbefore hrest hread hlength hanchor
  · obtain ⟨text, after, fault, hrest, hzero, hinside, hkind, hread, hlength, hanchor⟩ :=
      fault_of_extent hextent hfault
    refine ⟨'/' :: '*' :: text, after, fault.kind, ?_, by simpa using hzero, hinside, hkind, ?_⟩
    · rw [hrest]
      rfl
    · rw [tokenize_eq_error_iff, ← Reading.pos_layoutAfter config source]
      exact Reading.outcome_of_blockEnd hlimits hbody hbefore hrest hread hlength hanchor
  · have hsplit : skipped ++ opening ++ rest = source := (List.append_assoc _ _ _).trans hsource
    have hshort : (skipped ++ opening ++ rest).length < 2 ^ 32 := by
      rw [hsplit]
      exact hlength.trans (by decide)
    have hopened : CountsDepth (skipped ++ opening) 1 := by
      refine ⟨le_rfl, ?_⟩
      rw [List.length_append]
      exact Nat.le_add_left 2 _
    rw [← hsplit]
    exact hopened.of_visits hshort hvisits

theorem tokenize_blockComment_nested :
    (encode ['x', '/', '*', '/', '*', '*', '/', '*', '/', ';']).length < countMax ∧
    DecomposesBetween (encode ['/', '*', '/', '*', '*', '/', '*', '/', ';']) [] ['x']
      [([], ⟨.identifier, .ident "x"⟩)] ∧
    ∀ names : Interner Hasher.constant.text, tokenize ⟨8, .unlimited⟩
        (encode ['x', '/', '*', '/', '*', '*', '/', '*', '/', ';']) names =
      (Reading.behind [⟨⟨1, 1⟩, ⟨.identifier, .ident "x"⟩⟩]
        (Reading.onward ⟨8, .unlimited⟩ ⟨⟨1, 10⟩, 9, 9⟩ [0x3B])).tokens names := by
  have hlength : (encode ['x', '/', '*', '/', '*', '*', '/', '*', '/', ';']).length < countMax := by
    decide
  have hword : IsLexeme (encode ['x']) (opening ++ [0x2F, 0x2A, 0x2A, 0x2F, 0x2A, 0x2F, 0x3B])
      ⟨.identifier, .ident "x"⟩ :=
    .identifier rfl (.inl (by decide))
      ⟨by simp [show encode ['x'] = [0x78] by decide, inWord_iff, isWordByte, isWordStart],
        by simp [opening, inWord_iff, isWordByte, isWordStart, Number.isDigit]⟩
      (fun k => by cases k <;> decide)
  have hbefore : DecomposesBetween (opening ++ [0x2F, 0x2A, 0x2A, 0x2F, 0x2A, 0x2F, 0x3B]) [] ['x']
      [([], ⟨.identifier, .ident "x"⟩)] := .lexeme ['x'] hword (.nil _)
  have hinside : InBlock 0 [0x2F, 0x2A, 0x2A, 0x2F, 0x2A, 0x2F] := .enter (.leave .close)
  refine ⟨hlength, hbefore, fun names => ?_⟩
  exact (tokenize_blockComment rfl hlength rfl hbefore names).1 8
    ['/', '*', '/', '*', '*', '/', '*', '/'] (isLeast_of_inBlock hinside [0x3B]) rfl (by decide)

end FrontEnd
