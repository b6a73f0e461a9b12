/-
  The parser accepts exactly the grammar.

  What tokens spell, the readers read, provided that what follows cannot belong to it: a name is a call
  if a parenthesis follows, and a chain goes on as long as an operator of its level follows
  (`Level.goesOn`, `Accepts`).

  A chain is read from the left with the tree so far in hand, and that is how the grammar builds it: the
  reader of a chain comes, after the tokens of one, to where its loop stands with that chain.  So what is
  shown for chains is about the loop, by induction on how the tokens spell the tree.

  With `reads_statements` this gives both directions, and with them that a list of tokens spells one
  program at most.
-/

import ZebLang.Proofs.Program.Reading

namespace ZebLang

/-- `Yields x a rest`: a reader gives the value `a` and leaves these tokens. -/
def Yields {α : Type} {bound : Nat} (x : Except Fault (Taken α bound)) (a : α) (rest : List Token) :
    Prop :=
  ∃ h, x = .ok ⟨a, rest, h⟩

/-- `Yields` composes along `bind`. -/
theorem Yields.bind {α β : Type} {bound bound' : Nat} {x : Except Fault (Taken α bound)}
    {k : Taken α bound → Except Fault (Taken β bound')} {a : α} {b : β} {rest rest' : List Token}
    (hx : Yields x a rest) (hk : ∀ h, Yields (k ⟨a, rest, h⟩) b rest') : Yields (x >>= k) b rest' := by
  obtain ⟨h, rfl⟩ := hx
  exact hk h

/-- `Agrees x y`: two readers give the same and leave the same, or fail the same. -/
def Agrees {α : Type} {m n : Nat} : Except Fault (Taken α m) → Except Fault (Taken α n) → Prop
  | .ok a, .ok b => a.value = b.value ∧ a.rest = b.rest
  | .error fault, .error fault' => fault = fault'
  | _, _ => False

namespace Agrees

variable {α β : Type} {l m n : Nat} {x : Except Fault (Taken α l)} {y : Except Fault (Taken α m)}
  {z : Except Fault (Taken α n)}

theorem trans (hxy : Agrees x y) (hyz : Agrees y z) : Agrees x z := by
  cases x <;> cases y <;> cases z <;> simp_all [Agrees]

/-- `Agrees` with another bound on what is left. -/
theorem rebound (x : Except Fault (Taken α l)) (h : ∀ a : Taken α l, a.rest.length < m) :
    Agrees (x >>= fun a => pure (⟨a.value, a.rest, h a⟩ : Taken α m)) x := by
  cases x with
  | ok a => exact ⟨rfl, rfl⟩
  | error fault => rfl

/-- `Agrees` for a reader after one that `Yields` a value. -/
theorem bind {x : Except Fault (Taken β l)} {k : Taken β l → Except Fault (Taken α m)} {b : β}
    {rest : List Token} (hx : Yields x b rest) (hk : ∀ h, Agrees (k ⟨b, rest, h⟩) z) :
    Agrees (x >>= k) z := by
  obtain ⟨h, rfl⟩ := hx
  exact hk h

/-- `Agrees` passes on what the other reader `Yields`. -/
theorem yields {a : α} {rest : List Token} (hxy : Agrees x y) (hy : Yields y a rest) :
    Yields x a rest := by
  obtain ⟨h, rfl⟩ := hy
  cases x with
  | ok t =>
    obtain ⟨value, left, hlt⟩ := t
    obtain ⟨rfl, rfl⟩ := hxy
    exact ⟨hlt, rfl⟩
  | error fault => exact hxy.elim

theorem eq_error {fault : Fault} (hxy : Agrees x y) (hy : y = .error fault) : x = .error fault := by
  subst hy
  cases x with
  | ok t => exact hxy.elim
  | error other => exact congrArg _ hxy

end Agrees

/-- `level.goesOn kind`: a token of this kind goes on with an expression of this level in front of it. -/
def Level.goesOn : Level → TokenKind → Bool
  | .primary, kind | .unary, kind => kind = .leftParen
  | .chain .product, kind => kind = .leftParen || Chain.product.joins kind
  | .chain .sum, kind => kind = .leftParen || Chain.product.joins kind || Chain.sum.joins kind

/-- `goesOn` for a chain: where its last operand goes on, and with an operator. -/
theorem Level.goesOn_chain (c : Chain) (kind : TokenKind) :
    (Level.chain c).goesOn kind = (c.operand.goesOn kind || c.joins kind) := by
  cases c with
  | product => rfl
  | sum => rfl

/-- `goesOn` for the operands of a chain: its operators end them. -/
theorem Chain.goesOn_operand {c : Chain} {kind : TokenKind} (h : c.joins kind = true) :
    c.operand.goesOn kind = false := by
  cases c with
  | product =>
    cases kind with
    | star | slash | percent => rfl
    | _ => cases h
  | sum =>
    cases kind with
    | plus | minus => rfl
    | _ => cases h

namespace Parser

variable {last : Token}

/-! ## Readers at a known token -/

section Equations

variable {rest : List Token}

/-- `expect` takes a token of the kind that it wants. -/
theorem expect_of_kind {t : Token} {kind : TokenKind} (h : t.kind = kind) (wanted : String) :
    expect last kind wanted (t :: rest) = .ok ⟨t, rest, Nat.lt_succ_self _⟩ := by
  have hpeek : peekKind last (t :: rest) = kind := h
  rw [expect, if_pos hpeek]
  rfl

theorem primary_of_number {t : Token} (ht : t.kind = .number) :
    primary last (t :: rest) = do
      let value ← literal t.value t
      return ⟨value, rest, Nat.lt_succ_self _⟩ := by
  have hpeek : peekKind last (t :: rest) = .number := ht
  rw [primary, hpeek]
  rfl

/-- `primary` on a name that is not called. -/
theorem primary_of_name {name : Token} (hname : name.kind = .identifier)
    (hparen : peekKind last rest ≠ .leftParen) :
    primary last (name :: rest) =
      .ok ⟨.reference name.value name.location, rest, Nat.lt_succ_self _⟩ := by
  have hpeek : peekKind last (name :: rest) = .identifier := hname
  rw [primary, hpeek]
  dsimp only
  rw [take_bind, if_neg hparen]
  rfl

/-- `primary` on a name that is called. -/
theorem primary_of_call {name opening : Token} (hname : name.kind = .identifier)
    (hopening : opening.kind = .leftParen) :
    primary last (name :: opening :: rest) = do
      let argument ← chain .sum last rest
      let closing ← expect last .rightParen ")" argument.rest
      return ⟨.call name.value argument.value name.location, closing.rest,
        by have := closing.lt; have := argument.lt; simp only [List.length_cons]; omega⟩ := by
  have hpeek : peekKind last (name :: opening :: rest) = .identifier := hname
  have hcalled : peekKind last (opening :: rest) = .leftParen := hopening
  rw [primary, hpeek]
  dsimp only
  rw [take_bind, if_pos hcalled, take_bind]

/-- `primary` on an expression in parentheses. -/
theorem primary_of_group {opening : Token} (hopening : opening.kind = .leftParen) :
    primary last (opening :: rest) = do
      let inner ← chain .sum last rest
      let closing ← expect last .rightParen ")" inner.rest
      return ⟨inner.value, closing.rest,
        by have := closing.lt; have := inner.lt; simp only [List.length_cons]; omega⟩ := by
  have hpeek : peekKind last (opening :: rest) = .leftParen := hopening
  rw [primary, hpeek]
  dsimp only
  rw [take_bind]

/-- `unary` on a minus that belongs to a number. -/
theorem unary_of_negative {minus t : Token} (hminus : minus.kind = .minus) (ht : t.kind = .number) :
    unary last (minus :: t :: rest) = do
      let value ← negativeLiteral minus t
      return ⟨value, rest, by simp only [List.length_cons]; omega⟩ := by
  have hpeek : peekKind last (minus :: t :: rest) = .minus := hminus
  have hnumber : peekKind last (t :: rest) = .number := ht
  rw [unary, if_pos hpeek, take_bind]
  dsimp only
  rw [if_pos hnumber, take_bind]

/-- `unary` on any other minus. -/
theorem unary_of_negation {minus : Token} (hminus : minus.kind = .minus)
    (hfirst : peekKind last rest ≠ .number) :
    unary last (minus :: rest) = do
      let operand ← unary last rest
      return ⟨.binary (.literal (.int 0) minus.location) (.text "-") operand.value minus.location,
        operand.rest, by have := operand.lt; simp only [List.length_cons]; omega⟩ := by
  have hpeek : peekKind last (minus :: rest) = .minus := hminus
  rw [unary, if_pos hpeek, take_bind]
  dsimp only
  rw [if_neg hfirst]

theorem statement_of_exit {word : Token} (hword : word.kind = .exitWord) :
    statement last (word :: rest) = do
      let value ← chain .sum last rest
      return ⟨.exit value.value word.location, value.rest,
        by have := value.lt; simp only [List.length_cons]; omega⟩ := by
  have hpeek : (peek last (word :: rest)).kind = .exitWord := hword
  rw [statement, hpeek]
  rfl

theorem statement_of_assign {name sign : Token} (hname : name.kind = .identifier)
    (hsign : sign.kind = .assign) :
    statement last (name :: sign :: rest) = do
      let value ← chain .sum last rest
      return ⟨.assign name.value value.value name.location, value.rest,
        by have := value.lt; simp only [List.length_cons]; omega⟩ := by
  have hpeek : (peek last (name :: sign :: rest)).kind = .identifier := hname
  have hassign : peekKind last ((name :: sign :: rest).drop 1) = .assign := hsign
  rw [statement, hpeek]
  dsimp only
  rw [if_pos hassign]
  rfl

theorem statement_of_loop {word name joint : Token} (hword : word.kind = .forWord)
    (hname : name.kind = .identifier) (hjoint : joint.kind = .inWord) :
    statement last (word :: name :: joint :: rest) = do
      let range ← chain .sum last rest
      return ⟨.loop name.value range.value word.location, range.rest,
        by have := range.lt; simp only [List.length_cons]; omega⟩ := by
  have hpeek : (peek last (word :: name :: joint :: rest)).kind = .forWord := hword
  rw [statement, hpeek]
  dsimp only
  rw [take_bind]
  dsimp only
  rw [expect_of_kind hname]
  show (expect last .inWord "in" (joint :: rest) >>= _) = _
  rw [expect_of_kind hjoint]
  rfl

theorem statement_of_endLoop {word : Token} (hword : word.kind = .endforWord) :
    statement last (word :: rest) = .ok ⟨.endLoop word.location, rest, Nat.lt_succ_self _⟩ := by
  have hpeek : (peek last (word :: rest)).kind = .endforWord := hword
  rw [statement, hpeek]
  rfl

end Equations

/-! ## Where chains end -/

/-- `chainTail` stops where no operator of the chain follows. -/
theorem yields_chainTail_of_stop {c : Chain} {left : Expr} {rest : List Token}
    (h : c.joins (peekKind last rest) = false) : Yields (chainTail c last left rest) left rest := by
  rw [chainTail, h]
  exact ⟨_, rfl⟩

/-- `chainTail` takes an operator and its right operand, and goes on. -/
theorem agrees_chainTail_of_operator {c : Chain} {left right : Expr} {operator : Token}
    {rest after : List Token} (hoperator : c.joins operator.kind = true)
    (hright : Yields (read last c.operand rest) right after) :
    Agrees (chainTail c last left (operator :: rest))
      (chainTail c last (.binary left operator.value right operator.location) after) := by
  have hpeek : c.joins (peekKind last (operator :: rest)) = true := hoperator
  rw [chainTail, hpeek, if_pos rfl, take_bind]
  dsimp only
  rw [operand_eq_read]
  exact .bind hright fun h => .rebound _ _

/-! ## Expressions -/

/-- `Accepts last level tokens e`: the reader of a level gives `e` on these tokens, with `rest` behind them;
    that of a chain gets to `e` and goes on with `chainTail`. -/
def Accepts (last : Token) : Level → List Token → Expr → Prop
  | .primary, tokens, e =>
      ∀ rest, peekKind last rest ≠ .leftParen → Yields (primary last (tokens ++ rest)) e rest
  | .unary, tokens, e =>
      ∀ rest, peekKind last rest ≠ .leftParen → Yields (unary last (tokens ++ rest)) e rest
  | .chain c, tokens, e =>
      ∀ rest, c.operand.goesOn (peekKind last rest) = false →
        Agrees (chain c last (tokens ++ rest)) (chainTail c last e rest)

/-- `Accepts`, where something follows that does not go on with the expression. -/
theorem Accepts.yields {level : Level} {tokens rest : List Token} {e : Expr}
    (h : Accepts last level tokens e) (hends : level.goesOn (peekKind last rest) = false) :
    Yields (read last level (tokens ++ rest)) e rest := by
  cases level with
  | primary => exact h rest (of_decide_eq_false hends)
  | unary => exact h rest (of_decide_eq_false hends)
  | chain c =>
    rw [Level.goesOn_chain, Bool.or_eq_false_iff] at hends
    exact (h rest hends.1).yields (yields_chainTail_of_stop hends.2)

/-- `Accepts`, in front of a closing parenthesis. -/
theorem Accepts.closing {tokens rest : List Token} {e : Expr} {closing : Token}
    (h : Accepts last .sum tokens e) (hclosing : closing.kind = .rightParen) :
    Yields (chain .sum last (tokens ++ closing :: rest)) e (closing :: rest) := by
  have hpeek : peekKind last (closing :: rest) = .rightParen := hclosing
  exact h.yields (hpeek ▸ rfl)

/-- `unary` reads a primary expression, which does not start with a minus. -/
theorem yields_unary_of_primary {tokens rest : List Token} {e : Expr} (hspells : Spells .primary tokens e)
    (h : Yields (primary last (tokens ++ rest)) e rest) : Yields (unary last (tokens ++ rest)) e rest := by
  have hpeek : peekKind last (tokens ++ rest) ≠ .minus := by
    cases hspells with
    | number hkind => exact fun h => by cases hkind.symm.trans h
    | reference hname => exact fun h => by cases hname.symm.trans h
    | call hname => exact fun h => by cases hname.symm.trans h
    | group hopening => exact fun h => by cases hopening.symm.trans h
  rw [unary, if_neg hpeek]
  exact h

/-- `Spells` implies `Accepts`, by induction on the spelling. -/
theorem accepts_of_spells {level : Level} {tokens : List Token} {e : Expr}
    (h : Spells level tokens e) : Accepts last level tokens e := by
  induction h with
  | @number t n hkind hvalue hfits =>
    intro rest _
    have hliteral : literal t.value t = .ok (.literal (.int n) t.location) := by
      rw [hvalue]
      exact literal_of_fits (by unfold Cause.literalMin; omega) hfits
    show Yields (primary last (t :: rest)) _ rest
    rw [primary_of_number hkind, hliteral]
    exact ⟨_, rfl⟩
  | @reference name hname =>
    intro rest hparen
    show Yields (primary last (name :: rest)) _ rest
    rw [primary_of_name hname hparen]
    exact ⟨_, rfl⟩
  | @call name opening closing argument e hname hopening hargument hclosing ih =>
    intro rest _
    show Yields (primary last (name :: opening :: (argument ++ [closing] ++ rest))) _ rest
    rw [primary_of_call hname hopening, List.append_assoc]
    exact (ih.closing hclosing).bind fun h => ⟨_, by rw [expect_of_kind hclosing]; rfl⟩
  | @group opening closing inner e hopening hinner hclosing ih =>
    intro rest _
    show Yields (primary last (opening :: (inner ++ [closing] ++ rest))) _ rest
    rw [primary_of_group hopening, List.append_assoc]
    exact (ih.closing hclosing).bind fun h => ⟨_, by rw [expect_of_kind hclosing]; rfl⟩
  | @negative minus t n hminus hkind hvalue hfits =>
    intro rest _
    have hliteral : negativeLiteral minus t = .ok (.literal (.int (-n)) minus.location) := by
      unfold negativeLiteral
      rw [hvalue]
      exact literal_of_fits (by omega) (by unfold Cause.literalMax; omega)
    show Yields (unary last (minus :: t :: rest)) _ rest
    rw [unary_of_negative hminus hkind, hliteral]
    exact ⟨_, rfl⟩
  | @negation minus first operand e hminus hfirst hoperand ih =>
    intro rest hparen
    have hnumber : peekKind last (first :: (operand ++ rest)) ≠ .number := hfirst
    show Yields (unary last (minus :: first :: (operand ++ rest))) _ rest
    rw [unary_of_negation hminus hnumber]
    exact (ih rest hparen).bind fun h => ⟨_, rfl⟩
  | unary hspells ih =>
    intro rest hparen
    exact yields_unary_of_primary hspells (ih rest hparen)
  | @operand c tokens e hspells ih =>
    -- the loop starts with what was read
    intro rest hends
    show Agrees (chain c last (tokens ++ rest)) _
    rw [chain, operand_eq_read]
    exact .bind (ih.yields hends) fun h => .rebound _ _
  | @join c operator left right l r hleft hoperator hright ihleft ihright =>
    intro rest hends
    -- after the left side the loop stands at the operator, and one turn of it reads the right side
    rw [List.append_assoc]
    refine (ihleft (operator :: (right ++ rest)) (Chain.goesOn_operand hoperator)).trans ?_
    exact agrees_chainTail_of_operator hoperator (ihright.yields hends)

/-! ## Statements -/

/-- `statement` reads a statement that tokens spell, if nothing follows that goes on with it. -/
theorem yields_statement {tokens rest : List Token} {s : Stmt} (h : SpellsStatement tokens s)
    (hends : Level.sum.goesOn (peekKind last rest) = false) :
    Yields (statement last (tokens ++ rest)) s rest := by
  cases h with
  | @exit word value e hword hvalue =>
    show Yields (statement last (word :: (value ++ rest))) _ rest
    rw [statement_of_exit hword]
    exact ((accepts_of_spells hvalue).yields hends).bind fun h => ⟨_, rfl⟩
  | @assign name sign value e hname hsign hvalue =>
    show Yields (statement last (name :: sign :: (value ++ rest))) _ rest
    rw [statement_of_assign hname hsign]
    exact ((accepts_of_spells hvalue).yields hends).bind fun h => ⟨_, rfl⟩
  | @loop word name joint range e hword hname hjoint hrange =>
    show Yields (statement last (word :: name :: joint :: (range ++ rest))) _ rest
    rw [statement_of_loop hword hname hjoint]
    exact ((accepts_of_spells hrange).yields hends).bind fun h => ⟨_, rfl⟩
  | @endLoop word hword =>
    show Yields (statement last (word :: rest)) _ rest
    rw [statement_of_endLoop hword]
    exact ⟨_, rfl⟩

/-- `peekKind` of a statement is neither a separator nor the end. -/
theorem peekKind_of_statement {tokens : List Token} {s : Stmt} (h : SpellsStatement tokens s)
    (rest : List Token) : peekKind last (tokens ++ rest) ≠ .endOfFile ∧
      peekKind last (tokens ++ rest) ≠ .newline := by
  cases h with
  | exit hkind | assign hkind | loop hkind | endLoop hkind =>
    constructor
    · intro h
      cases hkind.symm.trans h
    · intro h
      cases hkind.symm.trans h

/-- `statements` reads a statement that tokens spell, and those behind it. -/
theorem statements_of_statement {tokens rest : List Token} {s : Stmt} (h : SpellsStatement tokens s)
    (hends : Level.sum.goesOn (peekKind last rest) = false) :
    statements last (tokens ++ rest) = match peekKind last rest with
      | .endOfFile => .ok [s]
      | .newline => do
          let separator ← take rest
          return s :: (← statements last separator.rest)
      | _ => .error (unexpected (peek last rest) "end of statement") := by
  obtain ⟨hend, hnewline⟩ := @peekKind_of_statement last tokens s h rest
  obtain ⟨hlt, hread⟩ := yields_statement h hends
  rw [statements]
  split
  next hkind => exact absurd hkind hend
  next hkind => exact absurd hkind hnewline
  next =>
    rw [hread]
    rfl

/-- `statements` reads what tokens spell. -/
theorem statements_of_spells {tokens : List Token} {program : List Stmt}
    (h : SpellsProgram tokens program) : statements last tokens = .ok program := by
  induction h with
  | @finish final hfinal =>
    have hpeek : peekKind last [final] = .endOfFile := hfinal
    rw [statements, hpeek]
    rfl
  | @last tokens s final hstatement hfinal =>
    have hpeek : peekKind last [final] = .endOfFile := hfinal
    rw [statements_of_statement hstatement (hpeek ▸ rfl), hpeek]
  | @blank separator rest program hseparator hrest ih =>
    have hpeek : peekKind last (separator :: rest) = .newline := hseparator
    rw [statements, hpeek]
    dsimp only
    rw [take_bind, ih]
  | @next separator tokens rest s program hstatement hseparator hrest ih =>
    have hpeek : peekKind last (separator :: rest) = .newline := hseparator
    rw [statements_of_statement hstatement (hpeek ▸ rfl), hpeek]
    dsimp only
    rw [take_bind, ih]
    rfl

end Parser

/-! ## Programs -/

/-- `parseTokens` meets `ReadsAll` on the tokens of a source text. -/
theorem reads_parseTokens {tokens : List Token} (hlexed : WellLexed tokens) :
    Parser.ReadsAll tokens (parseTokens tokens) := by
  obtain ⟨body, final, rfl, hfinal, hbody⟩ := hlexed.ends
  unfold parseTokens
  rw [List.getLast?_concat]
  exact Parser.reads_statements hfinal _ hlexed

/-- `parseTokens` gives a program just if the tokens spell it. -/
theorem parseTokens_eq_ok_iff {tokens : List Token} {program : List Stmt} (hlexed : WellLexed tokens) :
    parseTokens tokens = .ok program ↔ SpellsProgram tokens program := by
  constructor
  · intro h
    have hread := reads_parseTokens hlexed
    rw [h] at hread
    exact hread
  · intro h
    obtain ⟨body, final, rfl, hfinal, hbody⟩ := hlexed.ends
    unfold parseTokens
    rw [List.getLast?_concat]
    exact Parser.statements_of_spells h

/-- `Refuses` with a diagnostic of grammar at a place, unless a number is too long to be written. -/
theorem Refuses.quoting {due : List Token → Prop} {tokens : List Token} {fault : Fault}
    (h : Refuses due tokens fault) (lines : List String) :
    (∃ d, fault.quoting lines = .diagnostic d ∧ d.cause.category = some .grammar ∧
      d.location.isSome = true) ∨
    (fault.quoting lines = .unwritable ∧ ∃ t ∈ tokens, t.IsHuge) := by
  cases h with
  | report hcause => exact .inl ⟨_, rfl, hcause, rfl⟩
  | unwritable htokens hdue hhuge => exact .inr ⟨rfl, _, by rw [htokens]; simp, hhuge⟩

/-- The parser accepts exactly the grammar.  The tokens of a source text are parsed as a program just if
    they spell its statements; they spell one program at most; and if they spell none they are refused by
    a diagnostic of grammar at a place, unless a number among them is too long to be written. -/
theorem ofTokens_eq_ok_iff_spells {tokens : List Token} (hlexed : WellLexed tokens) (file : String)
    (lines : List String) :
    (∀ p, Program.ofTokens tokens file lines = .ok p ↔
      p.place = ⟨file, 1, 1⟩ ∧ SpellsProgram tokens p.statements) ∧
    (∀ a b, SpellsProgram tokens a → SpellsProgram tokens b → a = b) ∧
    ((¬∃ a, SpellsProgram tokens a) →
      (∃ d, Program.ofTokens tokens file lines = .error (.diagnostic d) ∧
        d.cause.category = some .grammar ∧ d.location.isSome = true) ∨
      (Program.ofTokens tokens file lines = .error .unwritable ∧ ∃ t ∈ tokens, t.IsHuge)) := by
  refine ⟨fun p => ?_, fun a b ha hb => ?_, fun hnone => ?_⟩
  · unfold Program.ofTokens
    cases hparse : parseTokens tokens with
    | ok statements =>
      have hspells := (parseTokens_eq_ok_iff hlexed).mp hparse
      constructor
      · intro h
        cases h
        exact ⟨rfl, hspells⟩
      · rintro ⟨hplace, hp⟩
        have hsame := (parseTokens_eq_ok_iff hlexed).mpr hp
        rw [hparse] at hsame
        cases hsame
        rw [← hplace]
    | error fault =>
      constructor
      · intro h
        cases h
      · rintro ⟨-, hp⟩
        rw [(parseTokens_eq_ok_iff hlexed).mpr hp] at hparse
        cases hparse
  · have ha := (parseTokens_eq_ok_iff hlexed).mpr ha
    rw [(parseTokens_eq_ok_iff hlexed).mpr hb] at ha
    cases ha
    rfl
  · have hread := reads_parseTokens hlexed
    unfold Program.ofTokens
    cases hparse : parseTokens tokens with
    | ok statements => exact absurd ⟨statements, (parseTokens_eq_ok_iff hlexed).mp hparse⟩ hnone
    | error fault =>
      rw [hparse] at hread
      rcases Refuses.quoting hread lines with ⟨d, hd, hcategory, hplace⟩ | ⟨hunwritable, hhuge⟩
      · exact .inl ⟨d, by rw [← hd], hcategory, hplace⟩
      · exact .inr ⟨by rw [← hunwritable], hhuge⟩

/-- The tokens of `exit -1 - 2 * 3`. -/
def chainTokens : List Token :=
  [⟨.exitWord, .text "exit", 1, 1, "f"⟩, ⟨.minus, .text "-", 1, 6, "f"⟩, ⟨.number, .int 1, 1, 7, "f"⟩,
    ⟨.minus, .text "-", 1, 9, "f"⟩, ⟨.number, .int 2, 1, 11, "f"⟩, ⟨.star, .text "*", 1, 13, "f"⟩,
    ⟨.number, .int 3, 1, 15, "f"⟩, ⟨.endOfFile, .none, 1, 16, "f"⟩]

/-- The first minus belongs to its number, the second subtracts a product. -/
theorem ofTokens_chainTokens :
    WellLexed chainTokens ∧
    Program.ofTokens chainTokens "f" [] = .ok
      ⟨[.exit (.binary (.literal (.int (-1)) ⟨"f", 1, 6⟩) (.text "-")
          (.binary (.literal (.int 2) ⟨"f", 1, 11⟩) (.text "*") (.literal (.int 3) ⟨"f", 1, 15⟩)
            ⟨"f", 1, 13⟩) ⟨"f", 1, 9⟩) ⟨"f", 1, 1⟩], ⟨"f", 1, 1⟩⟩ := by
  have hlexed : WellLexed chainTokens := by
    refine ⟨?_, chainTokens.dropLast, ⟨.endOfFile, .none, 1, 16, "f"⟩, rfl, rfl, by decide⟩
    have hnumbers : (∃ n : Nat, (1 : Int) = n) ∧ (∃ n : Nat, (2 : Int) = n) ∧ ∃ n : Nat, (3 : Int) = n :=
      ⟨⟨1, rfl⟩, ⟨2, rfl⟩, ⟨3, rfl⟩⟩
    simpa [chainTokens, Token.IsLexed, TokenKind.Carries] using hnumbers
  refine ⟨hlexed, ((ofTokens_eq_ok_iff_spells hlexed "f" []).1 _).mpr ⟨rfl, ?_⟩⟩
  have hleft : Spells .sum [⟨.minus, .text "-", 1, 6, "f"⟩, ⟨.number, .int 1, 1, 7, "f"⟩]
      (.literal (.int (-1)) ⟨"f", 1, 6⟩) :=
    Spells.inChain (.negative (n := 1) rfl rfl rfl (by decide)) .sum
  have hright : Spells .product [⟨.number, .int 2, 1, 11, "f"⟩, ⟨.star, .text "*", 1, 13, "f"⟩,
      ⟨.number, .int 3, 1, 15, "f"⟩] (.binary (.literal (.int 2) ⟨"f", 1, 11⟩) (.text "*")
        (.literal (.int 3) ⟨"f", 1, 15⟩) ⟨"f", 1, 13⟩) :=
    .join (Spells.inChain (.unary (.number (n := 2) rfl rfl (by decide))) .product) rfl
      (.unary (.number (n := 3) rfl rfl (by decide)))
  exact .last (.exit rfl (.join hleft rfl hright)) rfl

end ZebLang
