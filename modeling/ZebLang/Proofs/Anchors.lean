/-
  What stands in a source text where a node of the program is placed.

  Every node is placed where its own text starts.  A statement starts with its keyword or with the name that
  it binds, a name and a call start with the name, an operation is placed at its operator and a literal at its
  first digit or at the minus in front of it.

  1. Every token of the text but separators and the end is spelled in the row of its place, from its column on
     (`isSpelledIn_of_lex`).
  2. A node is placed at one of the tokens that spell it, so its anchor is the spelling of this token
     (`Spells.anchored`, `SpellsStatement.anchored`): by induction on how the tokens spell the tree.
  3. Each token is placed further on than the one before, because a spelling is never empty
     (`pairwise_of_lex`).  The places of the statements are among those of the tokens, in the same order
     (`SpellsProgram.places_sublist`).
-/

import ZebLang.Proofs.Quotation

namespace ZebLang

/-! ## Anchors -/

/-- `Shows text place anchor`: at this place the text reads `anchor`.  Rows end with line feeds, and both
    numbers count from one. -/
def Shows (text : List Char) (place : Location) (anchor : List Char) : Prop :=
  ∃ (line column : Nat) (row : List Char), place.line = line + 1 ∧ place.column = column + 1 ∧
    (Text.rows text)[line]? = some row ∧ anchor ≠ [] ∧ anchor <+: row.drop column

/-- `ShowsWord text place word`: at this place the text reads the word that a node carries. -/
def ShowsWord (text : List Char) (place : Location) (word : Datum) : Prop :=
  ∃ w, word = .text w ∧ Shows text place w.toList

/-- `e.Anchored text`: every node of an expression is placed at its anchor. -/
def Expr.Anchored (text : List Char) : Expr → Prop
  | literal value place => ∃ n c, value = .int n ∧ Shows text place [c] ∧ (c.isDigit = true ∨ c = '-') ∧
      (n < 0 → c = '-')
  | reference name place => ShowsWord text place name
  | binary left operator right place =>
      left.Anchored text ∧ ShowsWord text place operator ∧ right.Anchored text
  | call name argument place => ShowsWord text place name ∧ argument.Anchored text

/-- `s.Anchored text`: a statement and every node of its expression are placed at their anchors. -/
def Stmt.Anchored (text : List Char) : Stmt → Prop
  | exit value place => Shows text place "exit".toList ∧ value.Anchored text
  | assign name value place => ShowsWord text place name ∧ value.Anchored text
  | loop _ range place => Shows text place "for".toList ∧ range.Anchored text
  | endLoop place => Shows text place "endfor".toList

/-- `s.place`: the place of a statement. -/
def Stmt.place : Stmt → Location
  | exit _ place | assign _ _ place | loop _ _ place | endLoop place => place

/-- `a.Before b`: on a line further up, or further left on the same line. -/
def Location.Before (a b : Location) : Prop := a.line < b.line ∨ a.line = b.line ∧ a.column < b.column

/-! ## Spellings -/

theorem Spelling.ne_nil {lexeme : List Char} {kind : TokenKind} {value : Datum}
    (h : Spelling lexeme kind value) : lexeme ≠ [] := by
  cases h with
  | separator | sign => exact List.cons_ne_nil _ _
  | keyword hword =>
    obtain ⟨first, rest, hspelled, -⟩ := (TokenKind.ofWord_of_mem_keywords hword).1
    rw [hspelled]
    exact List.cons_ne_nil first rest
  | name hword =>
    obtain ⟨first, rest, hspelled, -⟩ := hword.spelled
    rw [hspelled]
    exact List.cons_ne_nil first rest
  | @number _ mark _ _ _ hne => exact List.append_ne_nil_of_right_ne_nil mark hne

theorem IsWord.lineFeed_not_mem {word : String} (h : IsWord word) : '\n' ∉ word.toList := by
  obtain ⟨first, rest, hspelled, hfirst, hrest⟩ := h
  rw [hspelled]
  intro hmem
  rcases List.mem_cons.mp hmem with rfl | hmem
  · exact absurd hfirst (by decide)
  · exact absurd (hrest _ hmem) (by decide)

/-- `Spelling`: only a separator holds a line feed. -/
theorem Spelling.lineFeed_not_mem {lexeme : List Char} {kind : TokenKind} {value : Datum}
    (h : Spelling lexeme kind value) (hkind : kind ≠ .newline) : '\n' ∉ lexeme := by
  cases h with
  | separator => exact absurd rfl hkind
  | sign hc =>
    intro hmem
    rw [← List.mem_singleton.mp hmem] at hc
    exact (sign_excludes hc).2.2.2 (.inl rfl)
  | keyword hword => exact (TokenKind.ofWord_of_mem_keywords hword).1.lineFeed_not_mem
  | name hword => exact hword.spelled.lineFeed_not_mem
  | number hmark hdigits => exact fun hmem => absurd (isWordChar_number hmark hdigits _ hmem) (by decide)

/-- `Spelling`: all but numbers are spelled as the text that they carry. -/
theorem Spelling.eq_value {lexeme : List Char} {kind : TokenKind} {value : Datum}
    (h : Spelling lexeme kind value) (hkind : kind ≠ .number) :
    ∃ word, value = .text word ∧ lexeme = word.toList := by
  cases h with
  | @separator c | @sign c => exact ⟨String.singleton c, rfl, by simp⟩
  | keyword | name => exact ⟨_, rfl, rfl⟩
  | number => exact absurd rfl hkind

/-- `Spelling`: a number starts with a digit. -/
theorem Spelling.first_of_number {lexeme : List Char} {value : Datum} (h : Spelling lexeme .number value) :
    ∃ c rest, lexeme = c :: rest ∧ c.isDigit = true := by
  obtain ⟨c, rest, hlexeme⟩ := List.exists_cons_of_ne_nil h.ne_nil
  refine ⟨c, rest, hlexeme, ?_⟩
  generalize hkind : TokenKind.number = kind at h
  cases h with
  | number hmark hdigits => exact Base.isDigit_of_marked hmark hdigits hlexeme
  | separator => cases hkind
  | name => cases hkind
  | sign hc =>
    have hall : ∀ sign ∈ signs, sign.2 ≠ .number := by decide
    exact absurd hkind.symm (hall _ hc)
  | keyword hword =>
    have hall : ∀ word ∈ keywords, word.2 ≠ .number := by decide
    exact absurd hkind.symm (hall _ hword)

/-- `soleSpellings`: kinds that have one spelling only, the words that start a statement, and the minus. -/
def soleSpellings : List (String × TokenKind) :=
  [("exit", .exitWord), ("for", .forWord), ("endfor", .endforWord), ("-", .minus)]

/-- `Spelling` of a kind in `soleSpellings`. -/
theorem Spelling.eq_of_mem {lexeme : List Char} {kind : TokenKind} {value : Datum} {word : String}
    (h : Spelling lexeme kind value) (hword : (word, kind) ∈ soleSpellings) : lexeme = word.toList := by
  have hkinds : ∀ sole ∈ soleSpellings,
      sole.2 ≠ .newline ∧ sole.2 ≠ .identifier ∧ sole.2 ≠ .number := by decide
  obtain ⟨hnewline, hidentifier, hnumber⟩ := hkinds _ hword
  cases h with
  | separator => exact absurd rfl hnewline
  | @sign c kind hc =>
    have hall : ∀ sign ∈ signs, ∀ sole ∈ soleSpellings, sole.2 = sign.2 → [sign.1] = sole.1.toList := by
      decide
    exact hall _ hc _ hword rfl
  | @keyword found kind hfound =>
    have hall : ∀ keyword ∈ keywords, ∀ sole ∈ soleSpellings,
        sole.2 = keyword.2 → keyword.1 = sole.1 := by decide
    exact congrArg String.toList (hall _ hfound _ hword rfl)
  | name => exact absurd rfl hidentifier
  | number => exact absurd rfl hnumber

/-! ## Tokens in the text -/

/-- `Shows` passes to what the anchor starts with. -/
theorem Shows.shorten {text anchor start : List Char} {place : Location} (h : Shows text place anchor)
    (hne : start ≠ []) (hstart : start <+: anchor) : Shows text place start := by
  obtain ⟨line, column, row, hline, hcolumn, hrow, -, hanchor⟩ := h
  exact ⟨line, column, row, hline, hcolumn, hrow, hne, hstart.trans hanchor⟩

/-- `Shows` at `placeBehind` some text what follows that text, up to the end of the row. -/
theorem shows_placeBehind (file : String) (before : List Char) {anchor after : List Char}
    (hne : anchor ≠ []) (hrow : '\n' ∉ anchor) :
    Shows (before ++ (anchor ++ after)) (placeBehind file before) anchor := by
  have hafter : Text.rowAfter (anchor ++ after) = anchor ++ Text.rowAfter after := by
    refine List.takeWhile_append_of_pos fun c hc => ?_
    simpa using fun heq : c = '\n' => hrow (heq ▸ hc)
  refine ⟨before.count '\n', (Text.rowBefore before).length, _, ?_, ?_, Text.getElem?_rows _ _, hne, ?_⟩
  · show ((1 + before.count '\n' : Nat) : Int) = _
    omega
  · show ((1 + (Text.rowBefore before).length : Nat) : Int) = _
    omega
  · rw [List.drop_left, hafter]
    exact List.prefix_append anchor _

/-- `t.IsSpelledIn text`: the token is spelled in the text at its place. -/
def Token.IsSpelledIn (text : List Char) (t : Token) : Prop :=
  ∃ lexeme, Spelling lexeme t.kind t.value ∧ Shows text t.location lexeme

/-- `IsSpelledIn` holds of every token of a text, unless it ends a statement. -/
theorem isSpelledIn_of_lex {source file : String} {tokens : List Token}
    (h : (lex source file).all = .ok tokens) {t : Token} (ht : t ∈ tokens)
    (hinside : t.kind ≠ .endOfFile ∧ t.kind ≠ .newline) : t.IsSpelledIn source.toList := by
  obtain ⟨before, after, hwhole, hplace, hstarts⟩ := startsAt_of_lex h ht
  cases hstarts with
  | final hkind => exact absurd hkind hinside.1
  | @spelled lexeme rest hstands =>
    refine ⟨lexeme, hstands.spelled, ?_⟩
    rw [hwhole, hplace]
    exact shows_placeBehind file before hstands.spelled.ne_nil (hstands.spelled.lineFeed_not_mem hinside.2)

namespace Token.IsSpelledIn

variable {text : List Char} {t : Token}

/-- `IsSpelledIn`: a name or an operator shows the word that it carries. -/
theorem showsWord (h : t.IsSpelledIn text) (hkind : t.kind ≠ .number) : ShowsWord text t.location t.value := by
  obtain ⟨lexeme, hspelled, hshows⟩ := h
  obtain ⟨word, hvalue, rfl⟩ := hspelled.eq_value hkind
  exact ⟨word, hvalue, hshows⟩

/-- `IsSpelledIn`: a keyword and a minus show their one spelling. -/
theorem shows (h : t.IsSpelledIn text) {word : String} {kind : TokenKind} (hkind : t.kind = kind)
    (hword : (word, kind) ∈ soleSpellings) : Shows text t.location word.toList := by
  obtain ⟨lexeme, hspelled, hshows⟩ := h
  rw [hkind] at hspelled
  rw [← hspelled.eq_of_mem hword]
  exact hshows

/-- `IsSpelledIn`: a number shows its first digit. -/
theorem showsDigit (h : t.IsSpelledIn text) (hkind : t.kind = .number) :
    ∃ c, Shows text t.location [c] ∧ c.isDigit = true := by
  obtain ⟨lexeme, hspelled, hshows⟩ := h
  rw [hkind] at hspelled
  obtain ⟨c, rest, rfl, hdigit⟩ := hspelled.first_of_number
  exact ⟨c, hshows.shorten (List.cons_ne_nil c []) ⟨rest, rfl⟩, hdigit⟩

end Token.IsSpelledIn

/-! ## Nodes at their tokens -/

/-- `Spells` by tokens that are spelled in the text gives an `Anchored` expression, by induction on the
    spelling. -/
theorem Spells.anchored {level : Level} {tokens : List Token} {e : Expr} {text : List Char}
    (h : Spells level tokens e) (hspelled : ∀ t ∈ tokens, t.IsSpelledIn text) : e.Anchored text := by
  induction h with
  | @number t n hkind hvalue hfits =>
    obtain ⟨c, hshows, hdigit⟩ := (hspelled t (by simp)).showsDigit hkind
    refine ⟨n, c, rfl, hshows, .inl hdigit, fun hneg => ?_⟩
    omega
  | @reference name hname => exact (hspelled name (by simp)).showsWord (by simp [hname])
  | @call name opening closing argument e hname hopening hargument hclosing ih =>
    exact ⟨(hspelled name (by simp)).showsWord (by simp [hname]), ih fun t ht => hspelled t (by simp [ht])⟩
  | group hopening hinner hclosing ih => exact ih fun t ht => hspelled t (by simp [ht])
  | @negative minus t n hminus hkind hvalue hfits =>
    have hshows : Shows text minus.location ['-'] :=
      (hspelled minus (by simp)).shows hminus (show ("-", _) ∈ _ by decide)
    exact ⟨-n, '-', rfl, hshows, .inr rfl, fun _ => rfl⟩
  | @negation minus first operand e hminus hfirst hoperand ih =>
    have hshows : Shows text minus.location ['-'] :=
      (hspelled minus (by simp)).shows hminus (show ("-", _) ∈ _ by decide)
    refine ⟨⟨0, '-', rfl, hshows, .inr rfl, fun _ => rfl⟩, ⟨"-", rfl, hshows⟩, ?_⟩
    exact ih fun t ht => hspelled t (List.mem_cons_of_mem minus ht)
  | unary _ ih | operand _ ih => exact ih hspelled
  | @join c operator left right l r hleft hoperator hright ihleft ihright =>
    have hkind : operator.kind ≠ .number := Chain.ne_of_joins hoperator ⟨rfl, rfl⟩
    exact ⟨ihleft fun t ht => hspelled t (by simp [ht]), (hspelled operator (by simp)).showsWord hkind,
      ihright fun t ht => hspelled t (by simp [ht])⟩

/-- `SpellsStatement` by tokens that are spelled in the text gives an `Anchored` statement. -/
theorem SpellsStatement.anchored {tokens : List Token} {s : Stmt} {text : List Char}
    (h : SpellsStatement tokens s) (hspelled : ∀ t ∈ tokens, t.IsSpelledIn text) : s.Anchored text := by
  cases h with
  | @exit word value e hword hvalue =>
    exact ⟨(hspelled word (by simp)).shows hword (by decide),
      hvalue.anchored fun t ht => hspelled t (by simp [ht])⟩
  | @assign name sign value e hname hsign hvalue =>
    exact ⟨(hspelled name (by simp)).showsWord (by simp [hname]),
      hvalue.anchored fun t ht => hspelled t (by simp [ht])⟩
  | @loop word name joint range e hword hname hjoint hrange =>
    exact ⟨(hspelled word (by simp)).shows hword (by decide),
      hrange.anchored fun t ht => hspelled t (by simp [ht])⟩
  | @endLoop word hword => exact (hspelled word (by simp)).shows hword (by decide)

/-- `SpellsProgram` by tokens that are spelled in the text gives `Anchored` statements. -/
theorem SpellsProgram.anchored {tokens : List Token} {program : List Stmt} {text : List Char}
    (h : SpellsProgram tokens program)
    (hspelled : ∀ t ∈ tokens, t.kind ≠ .endOfFile ∧ t.kind ≠ .newline → t.IsSpelledIn text) :
    ∀ s ∈ program, s.Anchored text := by
  induction h with
  | finish => exact fun s hs => nomatch hs
  | last hstatement hfinal =>
    intro s hs
    cases List.mem_singleton.mp hs
    exact hstatement.anchored fun t ht => hspelled t (by simp [ht]) (hstatement.inside t ht)
  | blank hseparator hrest ih => exact ih fun t ht => hspelled t (by simp [ht])
  | next hstatement hseparator hrest ih =>
    intro s hs
    rcases List.mem_cons.mp hs with rfl | hs
    · exact hstatement.anchored fun t ht => hspelled t (by simp [ht]) (hstatement.inside t ht)
    · exact ih (fun t ht => hspelled t (by simp [ht])) s hs

/-! ## Places in their order -/

theorem Location.Before.trans {a b c : Location} (hab : a.Before b) (hbc : b.Before c) : a.Before c := by
  unfold Before at *
  omega

/-- `placeBehind` one more character is further on. -/
theorem placeBehind_before_concat (file : String) (before : List Char) (x : Char) :
    (placeBehind file before).Before (placeBehind file (before ++ [x])) := by
  by_cases hx : x = '\n'
  · left
    subst hx
    show ((1 + before.count '\n' : Nat) : Int) < ((1 + (before ++ ['\n']).count '\n' : Nat) : Int)
    rw [List.count_append, List.count_singleton_self]
    omega
  · right
    constructor
    · show ((1 + before.count '\n' : Nat) : Int) = ((1 + (before ++ [x]).count '\n' : Nat) : Int)
      rw [List.count_append, List.count_singleton, if_neg (by simpa using hx), Nat.add_zero]
    · show ((1 + (Text.rowBefore before).length : Nat) : Int) <
        ((1 + (Text.rowBefore (before ++ [x])).length : Nat) : Int)
      rw [Text.rowBefore_concat hx, List.length_append, List.length_singleton]
      omega

/-- `placeBehind` more text is further on. -/
theorem placeBehind_before (file : String) (before : List Char) {more : List Char} (hne : more ≠ []) :
    (placeBehind file before).Before (placeBehind file (before ++ more)) := by
  induction more using List.reverseRecOn with
  | nil => exact absurd rfl hne
  | append_singleton init x ih =>
    rw [← List.append_assoc]
    by_cases hinit : init = []
    · rw [hinit, List.append_nil]
      exact placeBehind_before_concat file before x
    · exact (ih hinit).trans (placeBehind_before_concat file (before ++ init) x)

/-- `Decomposes`: each piece of a text stands before every later one. -/
theorem Decomposes.pairwise {file : String} {before text gap rest : List Char} {pieces : List Placed}
    (h : Decomposes file before text pieces gap rest) :
    pieces.Pairwise fun p q => p.token.location.Before q.token.location := by
  refine List.pairwise_iff_forall_sublist.mpr fun {p q} hpair => ?_
  obtain ⟨front, back, rfl, hp, hq⟩ := List.cons_sublist_iff.mp hpair
  obtain ⟨left, mid, rfl⟩ := List.append_of_mem hp
  obtain ⟨mid', right, rfl⟩ := List.append_of_mem (List.singleton_sublist.mp hq)
  have hsits := h.sits left p (mid ++ (mid' ++ q :: right)) (by simp)
  have hnext := h.sits (left ++ p :: (mid ++ mid')) q right (by simp)
  rw [hsits.place, hnext.place]
  have hfurther := placeBehind_before file (before ++ left.flatMap Placed.chars ++ p.gap)
    (List.append_ne_nil_of_left_ne_nil hsits.stands.spelled.ne_nil
      ((mid ++ mid').flatMap Placed.chars ++ q.gap))
  simpa [Placed.chars] using hfurther

/-- `lex` places each token before every later one. -/
theorem pairwise_of_lex {source file : String} {tokens : List Token}
    (h : (lex source file).all = .ok tokens) :
    tokens.Pairwise fun s t => s.location.Before t.location := by
  obtain ⟨pieces, gap, rest, hdecomposes, hends⟩ :=
    lexFrom_decomposes file (.start source.toList) (Cursor.isBehind_start source.toList)
  unfold lex at h
  generalize lexFrom file (.start source.toList) = lexed at h hends
  cases hends with
  | refused | overlong => cases h
  | @finished final hrest hkind hvalue hplace =>
    cases h
    refine List.pairwise_append.mpr
      ⟨List.pairwise_map.mpr hdecomposes.pairwise, List.pairwise_singleton _ _, ?_⟩
    intro s hs t ht
    obtain ⟨p, hp, rfl⟩ := List.mem_map.mp hs
    obtain rfl := List.mem_singleton.mp ht
    obtain ⟨left, right, rfl⟩ := List.append_of_mem hp
    have hsits := hdecomposes.sits left p right rfl
    rw [hsits.place, hplace]
    have hfurther := placeBehind_before file ([] ++ left.flatMap Placed.chars ++ p.gap)
      (List.append_ne_nil_of_left_ne_nil hsits.stands.spelled.ne_nil
        (right.flatMap Placed.chars ++ gap))
    simpa [Placed.chars] using hfurther

/-- `place` of a statement is that of its first token. -/
theorem SpellsStatement.place_eq {tokens : List Token} {s : Stmt} (h : SpellsStatement tokens s) :
    ∃ first rest, tokens = first :: rest ∧ s.place = first.location := by
  cases h with
  | exit | assign | loop | endLoop => exact ⟨_, _, rfl, rfl⟩

/-- `place` of each statement is among those of the tokens, in the same order. -/
theorem SpellsProgram.places_sublist {tokens : List Token} {program : List Stmt}
    (h : SpellsProgram tokens program) : (program.map Stmt.place).Sublist (tokens.map Token.location) := by
  induction h with
  | finish => exact List.nil_sublist _
  | last hstatement hfinal =>
    obtain ⟨first, rest, rfl, hplace⟩ := hstatement.place_eq
    rw [List.map_singleton, hplace]
    exact (List.nil_sublist _).cons_cons _
  | blank hseparator hrest ih => exact ih.cons _
  | next hstatement hseparator hrest ih =>
    obtain ⟨first, rest, rfl, hplace⟩ := hstatement.place_eq
    rw [List.map_cons, hplace, List.cons_append, List.map_cons, List.map_append, List.map_cons]
    exact ((ih.cons _).trans (List.sublist_append_right _ _)).cons_cons _

/-- Every node of a program is placed where its own text starts in the source, and every statement further
    on than the ones before it. -/
theorem anchored_of_ofSource {source file : String} {p : Program}
    (h : Program.ofSource source file = .ok p) :
    (∀ s ∈ p.statements, s.Anchored source.toList) ∧
      (p.statements.map Stmt.place).Pairwise Location.Before := by
  obtain ⟨tokens, hall, -, hspells⟩ := spells_of_ofSource h
  constructor
  · exact hspells.anchored fun t ht hinside => isSpelledIn_of_lex hall ht hinside
  · exact (List.pairwise_map.mpr (pairwise_of_lex hall)).sublist hspells.places_sublist

/-- The tokens of two lines, `  x = -y` and `for i in range(-3)`. -/
def twoLines : List Token :=
  [⟨.identifier, .text "x", 1, 3, "f"⟩, ⟨.assign, .text "=", 1, 5, "f"⟩, ⟨.minus, .text "-", 1, 7, "f"⟩,
    ⟨.identifier, .text "y", 1, 8, "f"⟩, ⟨.newline, .text "\n", 1, 9, "f"⟩,
    ⟨.forWord, .text "for", 2, 1, "f"⟩, ⟨.identifier, .text "i", 2, 5, "f"⟩, ⟨.inWord, .text "in", 2, 7, "f"⟩,
    ⟨.identifier, .text "range", 2, 10, "f"⟩, ⟨.leftParen, .text "(", 2, 15, "f"⟩,
    ⟨.minus, .text "-", 2, 16, "f"⟩, ⟨.number, .int 3, 2, 17, "f"⟩, ⟨.rightParen, .text ")", 2, 18, "f"⟩,
    ⟨.endOfFile, .none, 2, 19, "f"⟩]

/-- A unary minus, a negative literal, and statements on two lines. -/
theorem anchored_of_two_lines :
    ∃ p, Program.ofSource "  x = -y\nfor i in range(-3)" "f" = .ok p ∧
      p.statements.map Stmt.place = [⟨"f", 1, 3⟩, ⟨"f", 2, 1⟩] ∧
      (∀ s ∈ p.statements, s.Anchored "  x = -y\nfor i in range(-3)".toList) ∧
      (p.statements.map Stmt.place).Pairwise Location.Before := by
  have hall : (lex "  x = -y\nfor i in range(-3)" "f").all = .ok twoLines := by with_unfolding_all rfl
  have hstatements : parseTokens twoLines = .ok
      [.assign (.text "x") (.binary (.literal (.int 0) ⟨"f", 1, 7⟩) (.text "-")
          (.reference (.text "y") ⟨"f", 1, 8⟩) ⟨"f", 1, 7⟩) ⟨"f", 1, 3⟩,
        .loop (.text "i") (.call (.text "range") (.literal (.int (-3)) ⟨"f", 2, 16⟩) ⟨"f", 2, 10⟩)
          ⟨"f", 2, 1⟩] := by cbv
  have hparse := ofSource_of_all hall hstatements
  exact ⟨_, hparse, rfl, anchored_of_ofSource hparse⟩

end ZebLang
