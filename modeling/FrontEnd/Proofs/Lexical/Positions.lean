import FrontEnd.Proofs.Lexical.Readings

/-! # Positions of tokens

Where no count is met, a token stands where the text before it ends, and tokens stand in order. -/

namespace FrontEnd

variable {hash : String → UInt32}

open LexicalGrammar

namespace Position

/-! ## The rule of positions -/

/-- Where a move leads. A tab leads to the next one of the columns at a distance. -/
def after (tabStop : Nat) (pos : Position) : Move → Position
  | .visible => ⟨pos.line, pos.column + 1⟩
  | .tab => ⟨pos.line, pos.column + tabStop - pos.column % tabStop⟩
  | .lineBreak | .wideLineBreak => ⟨pos.line + 1, 1⟩

def afterAll (tabStop : Nat) (pos : Position) (moves : List Move) : Position :=
  moves.foldl (after tabStop) pos

/-- Where a text ends that starts at a position. A tab stop of zero counts as one. -/
def afterText (tabStop : Nat) (pos : Position) (text : List Char) : Position :=
  pos.afterAll (max tabStop 1) (Move.ofText text)

variable {tabStop : Nat}

theorem afterAll_cons (pos : Position) (move : Move) (moves : List Move) :
    pos.afterAll tabStop (move :: moves) = (pos.after tabStop move).afterAll tabStop moves := rfl

theorem afterAll_append (pos : Position) (first second : List Move) :
    pos.afterAll tabStop (first ++ second) =
      (pos.afterAll tabStop first).afterAll tabStop second :=
  List.foldl_append

theorem afterText_append {first second : List Char} (h : Unsplit first second) (pos : Position) :
    pos.afterText tabStop (first ++ second) =
      (pos.afterText tabStop first).afterText tabStop second := by
  rw [afterText, Move.ofText_append h, afterAll_append]
  rfl

/-- A text takes no more lines than characters. -/
theorem line_afterText_le (pos : Position) (text : List Char) :
    (pos.afterText tabStop text).line ≤ pos.line + text.length := by
  unfold afterText
  fun_induction Move.ofText text generalizing pos with
  | case1 => exact le_rfl
  | case2 text ih =>
      have hrest := ih ⟨pos.line + 1, 1⟩
      simp only [afterAll_cons, after, List.length_cons] at hrest ⊢
      omega
  | case3 char text hwide ih =>
      have hstep : ∀ move : Move, (pos.after (max tabStop 1) move).line ≤ pos.line + 1 := by
        intro move
        cases move <;> simp [after]
      have hmove := hstep (Move.ofChar char)
      have hrest := ih (pos.after (max tabStop 1) (Move.ofChar char))
      simp only [afterAll_cons, List.length_cons]
      omega

/-- A position as far as it is counted. -/
def capped (pos : Position) : Position := ⟨min pos.line countMax, min pos.column countMax⟩

/-! ## Order -/

theorem compare_eq_lt_iff {a b : Position} :
    a.compare b = .lt ↔ a.line < b.line ∨ a.line = b.line ∧ a.column < b.column := by
  rw [compare, Ordering.then_eq_lt, Nat.compare_eq_lt, Nat.compare_eq_eq, Nat.compare_eq_lt]

theorem compare_lt_trans {a b c : Position} (hab : a.compare b = .lt) (hbc : b.compare c = .lt) :
    a.compare c = .lt := by
  rw [compare_eq_lt_iff] at *
  omega

/-- Every move leads forward. -/
theorem compare_after (h : 0 < tabStop) (pos : Position) (move : Move) :
    pos.compare (pos.after tabStop move) = .lt := by
  have hmod := Nat.mod_lt pos.column h
  rw [compare_eq_lt_iff]
  cases move with
  | visible => exact .inr ⟨rfl, Nat.lt_succ_self _⟩
  | tab =>
      refine .inr ⟨rfl, ?_⟩
      simp only [after]
      omega
  | lineBreak => exact .inl (Nat.lt_succ_self _)
  | wideLineBreak => exact .inl (Nat.lt_succ_self _)

theorem compare_afterAll (h : 0 < tabStop) (pos : Position) {moves : List Move}
    (hmoves : moves ≠ []) : pos.compare (pos.afterAll tabStop moves) = .lt := by
  induction moves generalizing pos with
  | nil => exact absurd rfl hmoves
  | cons move moves ih =>
      have hstep := compare_after h pos move
      rw [afterAll_cons]
      cases moves with
      | nil => exact hstep
      | cons next rest => exact compare_lt_trans hstep (ih _ (List.cons_ne_nil next rest))

theorem compare_afterText (pos : Position) {text : List Char} (htext : text ≠ []) :
    pos.compare (pos.afterText tabStop text) = .lt :=
  compare_afterAll (lt_max_of_lt_right Nat.one_pos) pos (Move.ofText_ne_nil htext)

end Position

/-! ## Positions as far as they are counted -/

namespace Layout

variable {config : LayoutConfig}

theorem next_capped {l : Layout} {pos : Position} (h : l.pos = pos.capped) (move : Move) :
    (l.next config move).pos = (pos.after (max config.tabStop 1) move).capped := by
  have hmod := Nat.mod_lt pos.column (lt_max_of_lt_right Nat.one_pos : 0 < max config.tabStop 1)
  cases move with
  | visible =>
      simp only [next, Position.right, Position.after, Position.capped, h, addCount,
        Position.mk.injEq, true_and]
      omega
  | tab =>
      simp only [next, Position.right, Position.after, Position.capped, h, addCount, tabColumns,
        Position.mk.injEq, true_and]
      -- beyond the largest count a tab moves nothing, where the rule moves on
      by_cases hcolumn : pos.column ≤ countMax
      · rw [Nat.min_eq_left hcolumn]
        omega
      · rw [Nat.min_eq_right (by omega)]
        omega
  | lineBreak =>
      simp only [next, Position.nextLine, Position.after, Position.capped, h, addCount,
        Position.mk.injEq]
      exact ⟨by omega, rfl⟩
  | wideLineBreak =>
      simp only [next, Position.nextLine, Position.after, Position.capped, h, addCount,
        Position.mk.injEq]
      exact ⟨by omega, rfl⟩

theorem nextAll_capped {l : Layout} {pos : Position} (h : l.pos = pos.capped) (moves : List Move) :
    (l.nextAll config moves).pos = (pos.afterAll (max config.tabStop 1) moves).capped := by
  induction moves generalizing l pos with
  | nil => exact h
  | cons move moves ih => exact ih (next_capped h move)

end Layout

/-! ## Layouts with room -/

namespace Layout

variable {config : LayoutConfig} (hlines : config.limits.maxLines < countMax)
  (hcolumns : 1 + config.limits.maxLineChars * max config.tabStop 1 ≤ countMax)

include hcolumns

/-- The column is within a tab stop for each character of the line. -/
theorem right_pos {l : Layout} (hcolumn : l.pos.column ≤ 1 + l.lineChars * max config.tabStop 1)
    (hcount : addCount l.lineChars 1 ≤ config.limits.maxLineChars) {columns : Nat}
    (h : columns ≤ max config.tabStop 1) :
    l.pos.right columns = ⟨l.pos.line, l.pos.column + columns⟩ ∧
      (l.pos.right columns).column ≤ 1 + addCount l.lineChars 1 * max config.tabStop 1 := by
  have hstop : 1 ≤ max config.tabStop 1 := le_max_right _ _
  generalize max config.tabStop 1 = stop at *
  have hmost : config.limits.maxLineChars ≤ config.limits.maxLineChars * stop :=
    Nat.le_mul_of_pos_right _ hstop
  have hexact : addCount l.lineChars 1 = l.lineChars + 1 := by
    unfold addCount at *
    omega
  rw [hexact] at hcount ⊢
  have hwidth : (l.lineChars + 1) * stop ≤ config.limits.maxLineChars * stop :=
    Nat.mul_le_mul_right stop hcount
  rw [Nat.succ_mul] at hwidth ⊢
  have hright : addCount l.pos.column columns = l.pos.column + columns := by
    unfold addCount
    omega
  rw [Position.right, hright]
  exact ⟨rfl, by dsimp only; omega⟩

include hlines

theorem next_pos {l : Layout} (hcolumn : l.pos.column ≤ 1 + l.lineChars * max config.tabStop 1)
    {move : Move} (hnext : (l.next config move).Within config) :
    (l.next config move).pos = l.pos.after (max config.tabStop 1) move ∧
      (l.next config move).pos.column ≤
        1 + (l.next config move).lineChars * max config.tabStop 1 := by
  have hbreak : addCount l.pos.line 1 ≤ max config.limits.maxLines 1 →
      l.pos.nextLine = ⟨l.pos.line + 1, 1⟩ := by
    intro hline
    unfold Position.nextLine addCount countMax at *
    congr 1
    omega
  cases move with
  | visible => exact right_pos hcolumns hcolumn hnext.lineChars_le (le_max_right _ _)
  | tab =>
      have hstop : 0 < max config.tabStop 1 := lt_max_of_lt_right Nat.one_pos
      have hmod := Nat.mod_lt l.pos.column hstop
      have htab : tabColumns config l.pos.column ≤ max config.tabStop 1 := Nat.sub_le _ _
      have hright := right_pos hcolumns hcolumn hnext.lineChars_le htab
      have hafter : l.pos.column + tabColumns config l.pos.column =
          l.pos.column + max config.tabStop 1 - l.pos.column % max config.tabStop 1 :=
        (Nat.add_sub_assoc hmod.le _).symm
      rwa [hafter] at hright
  | lineBreak => exact ⟨hbreak hnext.line_le, Nat.le_add_right 1 _⟩
  | wideLineBreak => exact ⟨hbreak hnext.line_le, Nat.le_add_right 1 _⟩

/-- Where moves are made, they lead where the rule has it. -/
theorem nextAll_pos {l : Layout} (hcolumn : l.pos.column ≤ 1 + l.lineChars * max config.tabStop 1)
    {moves : List Move}
    (hmoves : ∀ first, first <+: moves → (l.nextAll config first).Within config) :
    (l.nextAll config moves).pos = l.pos.afterAll (max config.tabStop 1) moves := by
  induction moves generalizing l with
  | nil => rfl
  | cons move moves ih =>
      obtain ⟨hpos, hbound⟩ := next_pos hlines hcolumns hcolumn (hmoves [move] (by simp))
      rw [nextAll_cons, Position.afterAll_cons, ← hpos]
      refine ih hbound fun first hfirst => ?_
      exact hmoves (move :: first) ((List.prefix_cons_inj move).mpr hfirst)

end Layout

/-! ## Lexemes in order -/

/-- A text goes on to a longer one, not from inside of a line end. -/
def GoesOn (first second : List Char) : Prop :=
  ∃ more, second = first ++ more ∧ more ≠ [] ∧ Unsplit first more

theorem GoesOn.of_append {first second place : List Char} (hsecond : second ≠ [])
    (h : Unsplit first second) (hplace : place = first ++ second ∨ GoesOn (first ++ second) place) :
    GoesOn first place := by
  rcases hplace with rfl | ⟨more, rfl, -, -⟩
  · exact ⟨second, rfl, hsecond, h⟩
  · exact ⟨second ++ more, List.append_assoc .., by simp [hsecond], h.append_right hsecond⟩

theorem GoesOn.compare_eq_lt {first second : List Char} (h : GoesOn first second) (tabStop : Nat)
    (pos : Position) :
    (pos.afterText tabStop first).compare (pos.afterText tabStop second) = .lt := by
  obtain ⟨more, rfl, hmore, hunsplit⟩ := h
  rw [Position.afterText_append hunsplit]
  exact Position.compare_afterText _ hmore

namespace DecomposesBetween

variable {after : List UInt8} {before text : List Char} {lexemes : List (List Char × Lexeme)}

theorem goesOn_of_mem (h : DecomposesBetween after before text lexemes)
    (hbefore : Unsplit before text) {place : List Char}
    (hplace : place ∈ lexemes.map Prod.fst ++ [before ++ text]) :
    place = before ∨ GoesOn before place := by
  induction h using DecomposesBetween.induction with
  | nil before =>
      rw [List.append_nil] at hplace
      exact .inl (List.mem_singleton.mp hplace)
  | @piece before text lexemes lexeme? piece hpiece hrest ih =>
      have hne := hpiece.text_ne_nil
      rw [← List.append_assoc, List.map_append, List.append_assoc, List.mem_append] at hplace
      rcases hplace with hplace | hplace
      · left
        cases lexeme? <;> simp_all
      · exact .inr (.of_append hne (hbefore.of_append_right hne)
          (ih (hpiece.unsplit_append before) hplace))

/-- Every lexeme has more text before it than those before it have. -/
theorem pairwise_goesOn (h : DecomposesBetween after before text lexemes)
    (hbefore : Unsplit before text) :
    (lexemes.map Prod.fst ++ [before ++ text]).Pairwise GoesOn := by
  induction h using DecomposesBetween.induction with
  | nil before => simp
  | @piece before text lexemes lexeme? piece hpiece hrest ih =>
      have hne := hpiece.text_ne_nil
      have hnext := hpiece.unsplit_append before
      have hgoesOn : ∀ place ∈ lexemes.map Prod.fst ++ [before ++ piece ++ text],
          GoesOn before place := fun place hplace =>
        .of_append hne (hbefore.of_append_right hne) (hrest.goesOn_of_mem hnext hplace)
      rw [← List.append_assoc]
      cases lexeme? with
      | none => exact ih hnext
      | some lexeme => exact List.pairwise_cons.mpr ⟨hgoesOn, ih hnext⟩

/-- The moves before a lexeme are among the first ones of the text. -/
theorem prefix_of_mem (h : DecomposesBetween after before text lexemes)
    (hbefore : Unsplit before text) {entry : List Char × Lexeme} (hentry : entry ∈ lexemes) :
    ∃ more, before ++ text = entry.1 ++ more ∧ Unsplit entry.1 more := by
  have hplace := h.pairwise_goesOn hbefore
  rw [List.pairwise_append] at hplace
  obtain ⟨more, hmore, -, hunsplit⟩ :=
    hplace.2.2 entry.1 (List.mem_map_of_mem hentry) _ (List.mem_singleton_self _)
  exact ⟨more, hmore, hunsplit⟩

end DecomposesBetween

/-! ## Tokens -/

namespace PlacedLexeme

/-- Interning changes no kind and no position. -/
theorem map_internOnto (names : Interner hash) (done : List Token) (placed : List PlacedLexeme) :
    (internOnto names done placed).1.map (fun token => (token.kind, token.pos)) =
      done.reverse.map (fun token => (token.kind, token.pos)) ++
        placed.map fun placed => (placed.lexeme.kind, placed.pos) := by
  induction placed generalizing names done with
  | nil => simp [internOnto]
  | cons first placed ih =>
      rw [internOnto]
      simp [ih, intern]

end PlacedLexeme

/-- The tokens of a source stand where its text before each lexeme ends by the rule of positions, in
strict order, and the end of the file where the text ends. No column is beyond the largest count if
lines are short enough.

A byte-order mark takes no column: the text is what comes after it. -/
theorem tokenize_positions {config : LayoutConfig} (hlines : config.limits.maxLines < countMax)
    (hcolumns : 1 + config.limits.maxLineChars * max config.tabStop 1 ≤ countMax)
    {source : List UInt8} {names : Interner hash} {tokens : List Token}
    (h : (tokenize config source names).1 = .ok tokens) :
    ∃ text lexemes, Reading.body source = encode text ∧ DecomposesBetween [] [] text lexemes ∧
      tokens.map (fun token => (token.kind, token.pos)) =
        lexemes.map (fun entry =>
          (entry.2.kind, Position.start.afterText config.tabStop entry.1)) ++
          [(.endOfFile, Position.start.afterText config.tabStop text)] ∧
      tokens.Pairwise fun token later => token.pos.compare later.pos = .lt := by
  obtain ⟨stop, hstop⟩ := (exists_tokenize_ok_iff config source names).mp ⟨tokens, h⟩
  have hwithin := Reading.within_of_outcome hstop
  obtain ⟨text, lexemes, hbody, hdecomposes, hread⟩ := Reading.exists_text source
  obtain ⟨houtcome, hlexemes⟩ := hread config hwithin
  obtain ⟨hreached, rfl, hfault⟩ := Reading.reached_of_outcome hwithin houtcome hstop
  have hmoves := ((hwithin.stepAll_eq_ok_iff _ _).mp hreached).2
  rw [Pieces.remaining_eq_nil hfault] at hbody hdecomposes
  rw [List.append_nil] at hbody
  -- the rule holds for all of the text and for what comes before a lexeme
  have hpos : ∀ first, Move.ofText first <+: Move.ofText text →
      ((Reading.first source).nextAll config (Move.ofText first)).pos =
        Position.start.afterText config.tabStop first := by
    intro first hfirst
    refine Layout.nextAll_pos hlines hcolumns (Nat.le_add_right 1 _) fun moves hstarts => ?_
    exact hmoves moves (hstarts.trans hfirst)
  have hplaces : ∀ entry ∈ lexemes, Move.ofText entry.1 <+: Move.ofText text := by
    intro entry hentry
    obtain ⟨more, hmore, hunsplit⟩ := hdecomposes.prefix_of_mem (.nil_left text) hentry
    rw [List.nil_append] at hmore
    rw [hmore, Move.ofText_append hunsplit]
    exact List.prefix_append _ _
  have htokens : tokens.map (fun token => (token.kind, token.pos)) =
      lexemes.map (fun entry =>
        (entry.2.kind, Position.start.afterText config.tabStop entry.1)) ++
        [(.endOfFile, Position.start.afterText config.tabStop text)] := by
    rw [tokenize_eq, hstop] at h
    obtain rfl := Except.ok.inj h
    rw [List.map_append, PlacedLexeme.internAll, PlacedLexeme.map_internOnto,
      hlexemes _ hreached, List.map_map, ← hpos text List.prefix_rfl]
    refine congrArg (· ++ _) (List.map_congr_left fun entry hentry => ?_)
    rw [← hpos entry.1 (hplaces entry hentry)]
    rfl
  have hplace : tokens.map (fun token => token.pos) =
      (lexemes.map Prod.fst ++ [text]).map (Position.start.afterText config.tabStop) := by
    simpa [Function.comp_def] using congrArg (List.map Prod.snd) htokens
  refine ⟨text, lexemes, hbody, hdecomposes, htokens, ?_⟩
  rw [← List.pairwise_map (R := fun pos later => Position.compare pos later = .lt), hplace,
    List.pairwise_map]
  exact (hdecomposes.pairwise_goesOn (.nil_left text)).imp fun hgoesOn =>
    hgoesOn.compare_eq_lt config.tabStop .start

theorem tokenize_positions_tab_comment :
    ∃ text lexemes,
      Reading.body (encode ['\t', '/', '*', 'é', '*', '/', 'x', '\r', '\n', ';']) = encode text ∧
      DecomposesBetween [] [] text lexemes ∧
      [(.identifier, ⟨1, 13⟩), (.symbol .semicolon, ⟨2, 1⟩), (.endOfFile, ⟨2, 2⟩)] =
        lexemes.map (fun entry => (entry.2.kind, Position.start.afterText 8 entry.1)) ++
          [(.endOfFile, Position.start.afterText 8 text)] ∧
      [⟨.identifier, ⟨1, 13⟩, .ident ⟨0⟩⟩, ⟨.symbol .semicolon, ⟨2, 1⟩, .none⟩,
        .endOfFile ⟨2, 2⟩].Pairwise
          fun (token later : Token) => token.pos.compare later.pos = .lt := by
  have hok : (tokenize ({} : LayoutConfig)
      (encode ['\t', '/', '*', 'é', '*', '/', 'x', '\r', '\n', ';']) .noNames).1 =
        .ok [⟨.identifier, ⟨1, 13⟩, .ident ⟨0⟩⟩, ⟨.symbol .semicolon, ⟨2, 1⟩, .none⟩,
          .endOfFile ⟨2, 2⟩] := by
    decide +kernel
  exact tokenize_positions (by decide) (by decide) hok

end FrontEnd
