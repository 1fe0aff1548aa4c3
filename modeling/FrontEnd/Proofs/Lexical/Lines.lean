import FrontEnd.Proofs.Lexical.LineFeed
import FrontEnd.Proofs.Lexical.Tokens

/-! # Sources are read line by line

The tokens of two sources with a line feed between them are those of the first and then those of
the second, further down. -/

namespace FrontEnd

variable {hash : String → UInt32}

def PlacedLexeme.below (placed : PlacedLexeme) (lines : Nat) : PlacedLexeme :=
  ⟨placed.pos.below lines, placed.lexeme⟩

def LexicalError.below (e : LexicalError) (lines : Nat) : LexicalError :=
  ⟨e.kind, e.pos.below lines⟩

/-! ## Readings -/

namespace Reading

variable {config : LayoutConfig} {pos : Position}

theorem placed_append (first second : List Piece) :
    placed config pos (first ++ second) =
      placed config pos first ++ placed config (stopOf config pos first) second := by
  induction first generalizing pos with
  | nil => rfl
  | cons piece first ih => simp only [List.cons_append, placed, stopOf_cons, ih, List.append_assoc]

theorem stopOf_append (first second : List Piece) :
    stopOf config pos (first ++ second) = stopOf config (stopOf config pos first) second :=
  List.foldl_append

theorem stopOf_below (lines : Nat) (pieces : List Piece) :
    stopOf config (pos.below lines) pieces = (stopOf config pos pieces).below lines := by
  induction pieces generalizing pos with
  | nil => rfl
  | cons piece pieces ih => rw [stopOf_cons, stopOf_cons, Position.across_below, ih]

theorem placed_below (lines : Nat) (pieces : List Piece) :
    placed config (pos.below lines) pieces =
      (placed config pos pieces).map fun placed => placed.below lines := by
  induction pieces generalizing pos with
  | nil => rfl
  | cons piece pieces ih =>
      rw [placed, placed, Position.across_below, ih, List.map_append]
      cases piece.lexeme? <;> rfl

theorem finishAt_below (lines : Nat) (remaining : List UInt8) (fault? : Option ReadFault) :
    finishAt config (pos.below lines) remaining fault? =
      match finishAt config pos remaining fault? with
      | .ok stop => .ok (stop.below lines)
      | .error e => .error (e.below lines) := by
  cases fault? with
  | none => rfl
  | some fault =>
      cases hanchor : fault.anchor <;>
        simp [finishAt, hanchor, Position.across_below, LexicalError.below]

theorem finishAt_eq_error_kind {remaining : List UInt8} {fault : ReadFault} {e : LexicalError}
    (h : finishAt config pos remaining (some fault) = .error e) : e.kind = fault.kind := by
  cases hanchor : fault.anchor <;> simp only [finishAt, hanchor] at h <;> cases h <;> rfl

theorem eq_of_finishAt_eq_ok {remaining : List UInt8} {fault? : Option ReadFault} {stop : Position}
    (h : finishAt config pos remaining fault? = .ok stop) : stop = pos := by
  cases fault? with
  | none => exact (Except.ok.inj h).symm
  | some fault => cases hanchor : fault.anchor <;> simp [finishAt, hanchor] at h

theorem finishAt_append {remaining : List UInt8} {fault : ReadFault}
    (h : fault.read ≤ remaining.length) (more : List UInt8) :
    finishAt config pos (remaining ++ more) (some fault) =
      finishAt config pos remaining (some fault) := by
  simp only [finishAt, List.take_append_of_le_length h]

/-! ### Lines -/

theorem line_stopOf_le (config : LayoutConfig) (pos : Position) (pieces : List Piece) :
    (stopOf config pos pieces).line ≤ pos.line + (pieces.flatMap Piece.text).length := by
  induction pieces generalizing pos with
  | nil => exact Nat.le_refl _
  | cons piece pieces ih =>
      have hpiece := Position.line_across_le config pos piece.text
      have hrest := ih (pos.across config piece.text)
      rw [stopOf_cons, List.flatMap_cons, List.length_append]
      omega

theorem line_placed_le (pieces : List Piece) {entry : PlacedLexeme}
    (h : entry ∈ placed config pos pieces) :
    entry.pos.line ≤ pos.line + (pieces.flatMap Piece.text).length := by
  induction pieces generalizing pos with
  | nil => cases h
  | cons piece pieces ih =>
      have hpiece := Position.line_across_le config pos piece.text
      rw [List.flatMap_cons, List.length_append]
      rw [placed, List.mem_append, Option.mem_toList, Option.map_eq_some_iff] at h
      obtain ⟨lexeme, -, rfl⟩ | h := h
      · exact Nat.le_add_right _ _
      · have hrest := ih h
        omega

theorem line_finishAt_le {remaining : List UInt8} {fault? : Option ReadFault} {e : LexicalError}
    (h : finishAt config pos remaining fault? = .error e) :
    e.pos.line ≤ pos.line + remaining.length := by
  cases fault? with
  | none => cases h
  | some fault =>
      cases hanchor : fault.anchor <;> simp only [finishAt, hanchor] at h <;> cases h
      · exact Nat.le_add_right _ _
      · have hacross := Position.line_across_le config pos (remaining.take fault.read)
        rw [List.length_take] at hacross
        simp only
        omega

/-! ### Two sources -/

theorem body_lineFeed (source more : List UInt8) :
    body (source ++ 0x0A :: more) = body source ++ 0x0A :: more := by
  have hmark := isPrefixOf_lineFeed (by decide : 0x0A ∉ byteOrderMark) source more
  unfold body
  rw [hmark]
  split
  · rename_i hmarked
    obtain ⟨rest, rfl⟩ := List.isPrefixOf_iff_prefix.mp hmarked
    rw [List.append_assoc, List.drop_left, List.drop_left]
  · rfl

theorem getLast?_body {source : List UInt8} (hend : source.getLast? ≠ some 0x0D) :
    (body source).getLast? ≠ some 0x0D := by
  unfold body
  split
  · rename_i hmarked
    obtain ⟨rest, rfl⟩ := List.isPrefixOf_iff_prefix.mp hmarked
    rw [List.drop_left]
    intro hrest
    refine hend ?_
    rw [List.getLast?_append, hrest]
    rfl
  · exact hend

theorem body_of_not_marked {source : List UInt8} (h : ¬ byteOrderMark <+: source) :
    body source = source :=
  if_neg (h ∘ List.isPrefixOf_iff_prefix.mp)

section Unlimited

variable (hlimits : config.limits = .unlimited) {source : List UInt8}
  (hend : source.getLast? ≠ some 0x0D)

include hlimits

theorem outcome_eq (source : List UInt8) :
    (ofSource config source).outcome =
      finishAt config (stopOf config .start (Pieces.ofSource (body source)).pieces)
        (Pieces.ofSource (body source)).remaining (Pieces.ofSource (body source)).fault? := by
  rw [ofSource_eq hlimits]

theorem fault?_eq_none_of_ok {stop : Position} (h : (ofSource config source).outcome = .ok stop) :
    (Pieces.ofSource (body source)).fault? = none :=
  (ofSource_spec hlimits source).1.mp ⟨stop, h⟩

/-- No position in a source is further down than the source has bytes. -/
theorem line_le (source : List UInt8) :
    (∀ placed ∈ (ofSource config source).lexemes, placed.pos.line ≤ source.length + 1) ∧
    (∀ stop, (ofSource config source).outcome = .ok stop → stop.line ≤ source.length + 1) ∧
    ∀ e, (ofSource config source).outcome = .error e → e.pos.line ≤ source.length + 1 := by
  have hbody := length_body_le source
  have hlength := congrArg List.length (Pieces.flatMap_text (body source))
  rw [List.length_append] at hlength
  have hreached := line_stopOf_le config .start (Pieces.ofSource (body source)).pieces
  have hstart : Position.start.line = 1 := rfl
  rw [ofSource_eq hlimits]
  refine ⟨fun placed hplaced => ?_, fun stop hstop => ?_, fun e he => ?_⟩
  · have hline := line_placed_le _ hplaced
    omega
  · rw [eq_of_finishAt_eq_ok hstop]
    omega
  · have hline := line_finishAt_le he
    omega

include hend

/-- A source that has an end is read on from its next line, as a source of its own. -/
theorem ofSource_lineFeed_of_ok {stop : Position}
    (hstop : (ofSource config source).outcome = .ok stop) {more : List UInt8}
    (hmark : ¬ byteOrderMark <+: more) :
    ofSource config (source ++ 0x0A :: more) =
      ⟨(ofSource config source).lexemes ++
          (ofSource config more).lexemes.map fun placed => placed.below stop.line,
        match (ofSource config more).outcome with
        | .ok last => .ok (last.below stop.line)
        | .error e => .error (e.below stop.line)⟩ := by
  have hfault := fault?_eq_none_of_ok hlimits hstop
  have hcut := Pieces.ofSource_lineFeed (getLast?_body hend)
    (fun fault h => nomatch hfault.symm.trans h) more
  rw [outcome_eq hlimits, hfault] at hstop
  -- the line feed takes the end of the first source to the start of the second, further down
  have hnext : stop.nextLine = Position.start.below stop.line := rfl
  have hreached : stopOf config .start (Pieces.ofSource (body source)).pieces = stop :=
    Except.ok.inj hstop
  rw [hfault] at hcut
  simp only [ofSource_eq hlimits, body_lineFeed, hcut, Pieces.after, body_of_not_marked hmark,
    placed_append, stopOf_append, hreached]
  have hplaced : placed config stop [⟨[0x0A], none⟩] = [] := rfl
  have hpast : stopOf config stop [⟨[0x0A], none⟩] = Position.start.below stop.line := by
    simp [stopOf, Position.across, Position.past, hnext]
  rw [hplaced, hpast, placed_below, stopOf_below, finishAt_below, List.append_nil]

/-- A source that has an error is not read on, unless it is a comment that is left open. -/
theorem ofSource_lineFeed_of_error {e : LexicalError}
    (he : (ofSource config source).outcome = .error e) (hkind : e.kind ≠ .unclosedBlockComment)
    (more : List UInt8) : (ofSource config (source ++ 0x0A :: more)).outcome = .error e := by
  rw [outcome_eq hlimits] at he ⊢
  cases hfault : (Pieces.ofSource (body source)).fault? with
  | none =>
      rw [hfault] at he
      cases he
  | some fault =>
      rw [hfault] at he
      have hclosed : ∀ found, (Pieces.ofSource (body source)).fault? = some found →
          found.kind ≠ .unclosedBlockComment := by
        intro found hfound
        obtain rfl := Option.some.inj (hfault.symm.trans hfound)
        rwa [← finishAt_eq_error_kind he]
      rw [body_lineFeed, Pieces.ofSource_lineFeed (getLast?_body hend) hclosed, hfault]
      exact (finishAt_append (Pieces.read_le_of_fault hfault) _).trans he

end Unlimited

end Reading

/-! ## Spelled tokens -/

/-- The tokens of a source, each as what it spells and where. -/
def spelledTokens (config : LayoutConfig) (source : List UInt8) (names : Interner hash) :
    Except LexicalError (List (Option PlacedLexeme)) :=
  let (tokens, later) := tokenize config source names
  tokens.map fun tokens => tokens.map (Token.placed? later)

/-- The lexemes that are read, and then the end. -/
def Reading.all (reading : Reading) : Except LexicalError (List PlacedLexeme) :=
  reading.outcome.map fun stop => reading.lexemes ++ [⟨stop, Lexeme.endOfFile⟩]

/-- Tokens spell what is read, if there is room for their texts. -/
theorem spelledTokens_eq_of_room {config : LayoutConfig} {source : List UInt8}
    {names : Interner hash} (h : names.WellFormed)
    (hroom : names.size + (Reading.ofSource config source).lexemes.length < 2 ^ 32) :
    spelledTokens config source names =
      (Reading.ofSource config source).all.map fun placed => placed.map some := by
  obtain ⟨tokens, later, hintern, -, -, hspelled⟩ :=
    PlacedLexeme.internOnto_placed h [] (Reading.ofSource config source).lexemes hroom
  have hall : PlacedLexeme.internAll names (Reading.ofSource config source).lexemes =
      (tokens, later) := hintern
  simp only [spelledTokens, tokenize_eq, hall, Reading.all]
  cases (Reading.ofSource config source).outcome with
  | error e => rfl
  | ok stop =>
      have hend : Token.placed? later (.endOfFile stop) = some ⟨stop, .endOfFile⟩ := rfl
      simp only [Except.map, List.map_append, hspelled, List.map_cons, List.map_nil, hend]

theorem spelledTokens_eq (config : LayoutConfig) (source : List UInt8) {names : Interner hash}
    (h : names.WellFormed) (hroom : names.size + source.length < 2 ^ 32) :
    spelledTokens config source names =
      (Reading.ofSource config source).all.map fun placed => placed.map some := by
  have hlength := Reading.length_lexemes_le config source
  exact spelledTokens_eq_of_room h (by omega)

/-- A source that has tokens has them also before a line feed. Those of the source that follows come
next, as many lines further down as the first one has, and so does an error in it. A source that
fails does so whatever follows, unless it leaves a comment open.

Lines are counted up to `countMax`, which is not met in fewer bytes. -/
theorem spelledTokens_lineFeed {config : LayoutConfig} (hlimits : config.limits = .unlimited)
    {names : Interner hash} (hnames : names.WellFormed) (first second : List UInt8)
    (hroom : names.size + first.length + second.length < countMax)
    (hend : first.getLast? ≠ some 0x0D) (hmark : ¬ Reading.byteOrderMark <+: second) :
    (∀ spelled, spelledTokens config first names = .ok spelled →
      ∃ (tokens : List PlacedLexeme) (stop : Position),
        spelled = tokens.map some ++ [some ⟨stop, .endOfFile⟩] ∧
        match spelledTokens config second names with
        | .ok spelled => ∃ more : List PlacedLexeme, spelled = more.map some ∧
          spelledTokens config (first ++ 0x0A :: second) names =
            .ok (tokens.map some ++ more.map fun placed => some (placed.below stop.line)) ∧
          (first.length + second.length + 1 < countMax → ∀ placed ∈ more,
            (placed.below stop.line).pos = ⟨stop.line + placed.pos.line, placed.pos.column⟩)
        | .error e =>
          spelledTokens config (first ++ 0x0A :: second) names = .error (e.below stop.line) ∧
          (first.length + second.length + 1 < countMax →
            (e.below stop.line).pos = ⟨stop.line + e.pos.line, e.pos.column⟩)) ∧
    ∀ e, spelledTokens config first names = .error e → e.kind ≠ .unclosedBlockComment →
      spelledTokens config (first ++ 0x0A :: second) names = .error e := by
  unfold countMax at hroom
  have hfirst := spelledTokens_eq config first hnames (by omega)
  have hsecond := spelledTokens_eq config second hnames (by omega)
  have hboth := spelledTokens_eq config (first ++ 0x0A :: second) hnames
    (by simp only [List.length_append, List.length_cons]; omega)
  have hlines := Reading.line_le hlimits first
  have hmore := Reading.line_le hlimits second
  unfold Reading.all at hfirst hsecond hboth
  refine ⟨fun spelled hspelled => ?_, fun e he hkind => ?_⟩
  · cases hstop : (Reading.ofSource config first).outcome with
    | error e =>
        rw [hfirst, hstop] at hspelled
        cases hspelled
    | ok stop =>
        have hstopLine := hlines.2.1 stop hstop
        have hread := Reading.ofSource_lineFeed_of_ok hlimits hend hstop hmark
        rw [hfirst, hstop] at hspelled
        rw [hread] at hboth
        refine ⟨(Reading.ofSource config first).lexemes, stop, ?_, ?_⟩
        · simpa [Except.map] using hspelled.symm
        · rw [hsecond, hboth]
          cases hlast : (Reading.ofSource config second).outcome with
          | error e =>
              refine ⟨rfl, fun hshort => ?_⟩
              have hline := hmore.2.2 e hlast
              exact e.pos.below_eq (by omega)
          | ok last =>
              refine ⟨_, rfl, ?_, fun hshort placed hplaced => ?_⟩
              · simp [Except.map, PlacedLexeme.below, Function.comp_def]
              · have hline : placed.pos.line ≤ second.length + 1 := by
                  rw [List.mem_append, List.mem_singleton] at hplaced
                  rcases hplaced with hplaced | rfl
                  · exact hmore.1 placed hplaced
                  · exact hmore.2.1 last hlast
                exact placed.pos.below_eq (by omega)
  · cases herror : (Reading.ofSource config first).outcome with
    | ok stop =>
        rw [hfirst, herror] at he
        cases he
    | error found =>
        rw [hfirst, herror] at he
        obtain rfl := Except.error.inj he
        rw [hboth, Reading.ofSource_lineFeed_of_error hlimits hend herror hkind]
        rfl

theorem spelledTokens_comment_identifier :
    spelledTokens ⟨8, .unlimited⟩ ([0x78, 0x20, 0x2F, 0x2F] ++ 0x0A :: [0x79]) .noNames =
      .ok [some ⟨⟨1, 1⟩, ⟨.identifier, .ident "x"⟩⟩, some ⟨⟨2, 1⟩, ⟨.identifier, .ident "y"⟩⟩,
        some ⟨⟨2, 2⟩, .endOfFile⟩] := by
  have hfirst : spelledTokens ⟨8, .unlimited⟩ [0x78, 0x20, 0x2F, 0x2F] .noNames =
      .ok [some ⟨⟨1, 1⟩, ⟨.identifier, .ident "x"⟩⟩, some ⟨⟨1, 5⟩, .endOfFile⟩] := by
    decide +kernel
  have hsecond : spelledTokens ⟨8, .unlimited⟩ [0x79] .noNames =
      .ok [some ⟨⟨1, 1⟩, ⟨.identifier, .ident "y"⟩⟩, some ⟨⟨1, 2⟩, .endOfFile⟩] := by
    decide +kernel
  have hlimits : (⟨8, .unlimited⟩ : LayoutConfig).limits = .unlimited := rfl
  obtain ⟨tokens, stop, htokens, hrest⟩ :=
    (spelledTokens_lineFeed hlimits Interner.noNames_wellFormed [0x78, 0x20, 0x2F, 0x2F] [0x79]
      (by decide) (by decide) (by decide)).1 _ hfirst
  rw [hsecond] at hrest
  obtain ⟨more, hmore, hboth, -⟩ := hrest
  have hall : [some ⟨⟨1, 1⟩, ⟨.identifier, .ident "x"⟩⟩] ++ [some ⟨⟨1, 5⟩, .endOfFile⟩] =
      tokens.map some ++ [some ⟨stop, .endOfFile⟩] := htokens
  obtain ⟨hbefore, hstop⟩ := List.append_inj' hall rfl
  have hline : stop = ⟨1, 5⟩ := by simpa using hstop.symm
  have hbelow : (more.map fun placed => some (placed.below stop.line)) =
      (more.map some).map (Option.map fun placed => placed.below stop.line) := by simp
  rw [hboth, ← hbefore, hbelow, ← hmore, hline]
  rfl

/-! ### Lines that are not counted -/

theorem Reading.ofSource_nil {config : LayoutConfig} (hlimits : config.limits = .unlimited) :
    ofSource config [] = ⟨[], .ok .start⟩ := by
  have hbody : body [] = [] := rfl
  rw [ofSource_eq hlimits, hbody, Pieces.ofSource_nil]
  rfl

/-- Line feeds have no tokens, and end on the line after the last of them, as far as lines are
counted. -/
theorem Reading.ofSource_lineFeeds {config : LayoutConfig} (hlimits : config.limits = .unlimited)
    (n : Nat) :
    ofSource config (List.replicate n 0x0A) = ⟨[], .ok ⟨addCount n 1, 1⟩⟩ := by
  induction n with
  | zero => exact ofSource_nil hlimits
  | succ n ih =>
      have hempty := ofSource_nil hlimits
      have hmark : ¬ byteOrderMark <+: List.replicate n 0x0A := by
        intro hprefix
        have hmem := hprefix.subset (List.mem_cons_self ..)
        cases List.eq_of_mem_replicate hmem
      have hread := ofSource_lineFeed_of_ok hlimits (by simp)
        (congrArg Reading.outcome hempty) hmark
      rw [List.nil_append, ← List.replicate_succ, hempty, ih] at hread
      rw [hread]
      simp only [List.map_nil, List.append_nil, Position.below, Position.start, addCount]
      congr 3
      omega

/-- The line feed between as many line feeds as bytes are counted and nothing starts a line that is
not counted: the end stays on the last line that is. -/
theorem not_forall_spelledTokens_lineFeed :
    ¬ ∀ (first second : List UInt8) (tokens more : List PlacedLexeme) (stop : Position),
      first.length + second.length < countMax → first.getLast? ≠ some 0x0D →
      ¬ Reading.byteOrderMark <+: second →
      spelledTokens ⟨8, .unlimited⟩ first .noNames =
        .ok (tokens.map some ++ [some ⟨stop, .endOfFile⟩]) →
      spelledTokens ⟨8, .unlimited⟩ second .noNames = .ok (more.map some) →
      spelledTokens ⟨8, .unlimited⟩ (first ++ 0x0A :: second) .noNames =
        .ok (tokens.map some ++ more.map fun placed =>
          some ⟨⟨stop.line + placed.pos.line, placed.pos.column⟩, placed.lexeme⟩) := by
  intro hbelow
  have hlimits : (⟨8, .unlimited⟩ : LayoutConfig).limits = .unlimited := rfl
  have hfeeds : ∀ n : Nat, spelledTokens ⟨8, .unlimited⟩ (List.replicate n 0x0A) .noNames =
      .ok [some ⟨⟨addCount n 1, 1⟩, .endOfFile⟩] := by
    intro n
    have hread := Reading.ofSource_lineFeeds hlimits n
    have hroom : Interner.noNames.size +
        (Reading.ofSource ⟨8, .unlimited⟩ (List.replicate n 0x0A)).lexemes.length < 2 ^ 32 := by
      rw [hread]
      exact Nat.two_pow_pos 32
    rw [spelledTokens_eq_of_room Interner.noNames_wellFormed hroom, hread]
    rfl
  have hfirst := hfeeds (countMax - 1)
  have hsecond := hfeeds 0
  have hboth := hfeeds countMax
  have hjoined : List.replicate (countMax - 1) (0x0A : UInt8) ++ 0x0A :: List.replicate 0 0x0A =
      List.replicate countMax 0x0A := by
    rw [List.replicate_zero, ← List.replicate_succ', Nat.sub_add_cancel (by decide)]
  have hend : (List.replicate (countMax - 1) (0x0A : UInt8)).getLast? ≠ some 0x0D := by
    intro hlast
    cases List.eq_of_mem_replicate (List.mem_of_getLast? hlast)
  have hsame := hbelow _ _ [] [⟨⟨addCount 0 1, 1⟩, .endOfFile⟩] _
    (by rw [List.length_replicate, List.length_replicate]; decide) hend (by decide) hfirst hsecond
  rw [hjoined, hboth] at hsame
  -- the last line that is counted is not the one after it
  exact absurd hsame (by decide)

end FrontEnd
