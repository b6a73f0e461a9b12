/-
  The grammar, as a relation between tokens and the trees that they spell.

  Chains of operators are left-recursive here: a chain is an operand, or a chain, an operator and an
  operand.  So it associates to the left by the rule itself.  The operands of a sum are products and those
  of a product are unary expressions, so the operators bind as tightly as their level is low.

  A minus directly before a number belongs to the number.  The rule for any other minus asks that no
  number follows it, so no list of tokens falls under both.

  A program is a list of statements, each ended by a separator or by the end of the file.  Separators may
  stand alone.

  Beside the phrases stand their beginnings: tokens that start a phrase and stop where an operand is due
  (`Awaits`), or a statement, or the end of one.  Their rules follow those of the phrases.
-/

import ZebLang.Diagnostic
import ZebLang.Program
import ZebLang.Token

namespace ZebLang

/-! ## Phrases -/

/-- `Level`: the levels of expressions, the tightest first. -/
inductive Level where
  | primary
  | unary
  | chain (c : Chain)
  deriving DecidableEq, Repr

abbrev Level.product : Level := .chain .product

abbrev Level.sum : Level := .chain .sum

/-- `c.operand`: the level of the operands of a chain. -/
def Chain.operand : Chain → Level
  | product => .unary
  | sum => .product

/-- `Spells level tokens e`: the tokens spell this expression at this level. -/
inductive Spells : Level → List Token → Expr → Prop where
  | number {t : Token} {n : Nat} (hkind : t.kind = .number) (hvalue : t.value = .int n)
      (hfits : (n : Int) ≤ Cause.literalMax) : Spells .primary [t] (.literal (.int n) t.location)
  | reference {name : Token} (hname : name.kind = .identifier) :
      Spells .primary [name] (.reference name.value name.location)
  | call {name opening closing : Token} {argument : List Token} {e : Expr}
      (hname : name.kind = .identifier) (hopening : opening.kind = .leftParen)
      (hargument : Spells .sum argument e) (hclosing : closing.kind = .rightParen) :
      Spells .primary (name :: opening :: (argument ++ [closing])) (.call name.value e name.location)
  | group {opening closing : Token} {inner : List Token} {e : Expr}
      (hopening : opening.kind = .leftParen) (hinner : Spells .sum inner e)
      (hclosing : closing.kind = .rightParen) : Spells .primary (opening :: (inner ++ [closing])) e
  | negative {minus t : Token} {n : Nat} (hminus : minus.kind = .minus) (hkind : t.kind = .number)
      (hvalue : t.value = .int n) (hfits : (n : Int) ≤ -Cause.literalMin) :
      Spells .unary [minus, t] (.literal (.int (-n)) minus.location)
  | negation {minus first : Token} {operand : List Token} {e : Expr} (hminus : minus.kind = .minus)
      (hfirst : first.kind ≠ .number) (hoperand : Spells .unary (first :: operand) e) :
      Spells .unary (minus :: first :: operand)
        (.binary (.literal (.int 0) minus.location) (.text "-") e minus.location)
  | unary {tokens : List Token} {e : Expr} (h : Spells .primary tokens e) : Spells .unary tokens e
  | operand {c : Chain} {tokens : List Token} {e : Expr} (h : Spells c.operand tokens e) :
      Spells (.chain c) tokens e
  | join {c : Chain} {operator : Token} {left right : List Token} {l r : Expr}
      (hleft : Spells (.chain c) left l) (hoperator : c.joins operator.kind = true)
      (hright : Spells c.operand right r) :
      Spells (.chain c) (left ++ operator :: right) (.binary l operator.value r operator.location)

/-- `SpellsStatement tokens s`: the tokens spell this statement. -/
inductive SpellsStatement : List Token → Stmt → Prop where
  | exit {word : Token} {value : List Token} {e : Expr} (hword : word.kind = .exitWord)
      (hvalue : Spells .sum value e) : SpellsStatement (word :: value) (.exit e word.location)
  | assign {name sign : Token} {value : List Token} {e : Expr} (hname : name.kind = .identifier)
      (hsign : sign.kind = .assign) (hvalue : Spells .sum value e) :
      SpellsStatement (name :: sign :: value) (.assign name.value e name.location)
  | loop {word name joint : Token} {range : List Token} {e : Expr} (hword : word.kind = .forWord)
      (hname : name.kind = .identifier) (hjoint : joint.kind = .inWord) (hrange : Spells .sum range e) :
      SpellsStatement (word :: name :: joint :: range) (.loop name.value e word.location)
  | endLoop {word : Token} (hword : word.kind = .endforWord) :
      SpellsStatement [word] (.endLoop word.location)

/-- `SpellsProgram tokens program`: the tokens spell these statements. -/
inductive SpellsProgram : List Token → List Stmt → Prop where
  | finish {final : Token} (hfinal : final.kind = .endOfFile) : SpellsProgram [final] []
  | last {tokens : List Token} {s : Stmt} {final : Token} (hstatement : SpellsStatement tokens s)
      (hfinal : final.kind = .endOfFile) : SpellsProgram (tokens ++ [final]) [s]
  | blank {separator : Token} {rest : List Token} {statements : List Stmt}
      (hseparator : separator.kind = .newline) (hrest : SpellsProgram rest statements) :
      SpellsProgram (separator :: rest) statements
  | next {separator : Token} {tokens rest : List Token} {s : Stmt} {statements : List Stmt}
      (hstatement : SpellsStatement tokens s) (hseparator : separator.kind = .newline)
      (hrest : SpellsProgram rest statements) :
      SpellsProgram (tokens ++ separator :: rest) (s :: statements)

/-! ## Beginnings of phrases -/

/-- `Awaits level tokens`: the tokens start an expression of this level and stop where an operand is due. -/
inductive Awaits : Level → List Token → Prop where
  | here : Awaits .primary []
  | call {name opening : Token} {before : List Token} (hname : name.kind = .identifier)
      (hopening : opening.kind = .leftParen) (h : Awaits .sum before) :
      Awaits .primary (name :: opening :: before)
  | group {opening : Token} {before : List Token} (hopening : opening.kind = .leftParen)
      (h : Awaits .sum before) : Awaits .primary (opening :: before)
  | minus {minus : Token} {before : List Token} (hminus : minus.kind = .minus)
      (h : Awaits .unary before) : Awaits .unary (minus :: before)
  | unary {before : List Token} (h : Awaits .primary before) : Awaits .unary before
  | operand {c : Chain} {before : List Token} (h : Awaits c.operand before) : Awaits (.chain c) before
  | join {c : Chain} {operator : Token} {left before : List Token} {l : Expr}
      (hleft : Spells (.chain c) left l) (hoperator : c.joins operator.kind = true)
      (h : Awaits c.operand before) : Awaits (.chain c) (left ++ operator :: before)

/-- `AwaitsStatement tokens`: the tokens start a statement and stop where the statement or an operand of it
    is due. -/
inductive AwaitsStatement : List Token → Prop where
  | here : AwaitsStatement []
  | exit {word : Token} {before : List Token} (hword : word.kind = .exitWord)
      (h : Awaits .sum before) : AwaitsStatement (word :: before)
  | assign {name sign : Token} {before : List Token} (hname : name.kind = .identifier)
      (hsign : sign.kind = .assign) (h : Awaits .sum before) : AwaitsStatement (name :: sign :: before)
  | loop {word name joint : Token} {before : List Token} (hword : word.kind = .forWord)
      (hname : name.kind = .identifier) (hjoint : joint.kind = .inWord) (h : Awaits .sum before) :
      AwaitsStatement (word :: name :: joint :: before)

/-- `AwaitsProgram tokens`: the tokens start a program and stop where a statement, an operand or the end of
    a statement is due. -/
inductive AwaitsProgram : List Token → Prop where
  | within {before : List Token} (h : AwaitsStatement before) : AwaitsProgram before
  | ended {before : List Token} {s : Stmt} (h : SpellsStatement before s) : AwaitsProgram before
  | blank {separator : Token} {before : List Token} (hseparator : separator.kind = .newline)
      (h : AwaitsProgram before) : AwaitsProgram (separator :: before)
  | next {separator : Token} {tokens before : List Token} {s : Stmt}
      (hstatement : SpellsStatement tokens s) (hseparator : separator.kind = .newline)
      (h : AwaitsProgram before) : AwaitsProgram (tokens ++ separator :: before)

/-! ## Tokens of a source text -/

/-- `kind.Carries value`: what a lexer puts into tokens of a kind; into a number a natural number, into an
    operator its own sign, and into any other word or sign a text. -/
def TokenKind.Carries : TokenKind → Datum → Prop
  | endOfFile, _ => True
  | number, value => ∃ n : Nat, value = .int n
  | plus, value => value = .text "+"
  | minus, value => value = .text "-"
  | star, value => value = .text "*"
  | slash, value => value = .text "/"
  | percent, value => value = .text "%"
  | _, value => ∃ word, value = .text word

/-- `Carries`: all but the end is a number or carries a text. -/
theorem TokenKind.number_or_text {kind : TokenKind} {value : Datum} (h : kind.Carries value)
    (hkind : kind ≠ .endOfFile) :
    (kind = .number ∧ ∃ n : Nat, value = .int n) ∨ ∃ word, value = .text word := by
  cases kind with
  | endOfFile => exact absurd rfl hkind
  | number => exact .inl ⟨rfl, h⟩
  | plus | minus | star | slash | percent => exact .inr ⟨_, h⟩
  | _ => exact .inr h

/-- `t.IsLexed`: the token carries what a lexer puts into tokens of its kind. -/
def Token.IsLexed (t : Token) : Prop := t.kind.Carries t.value

/-- `WellLexed tokens`: the tokens of a source text; the last one marks the end, and no other does. -/
structure WellLexed (tokens : List Token) : Prop where
  each : ∀ t ∈ tokens, t.IsLexed
  ends : ∃ body final, tokens = body ++ [final] ∧ final.kind = .endOfFile ∧
    ∀ t ∈ body, t.kind ≠ .endOfFile

/-! ## No phrase is empty or holds the end of a statement -/

/-- `Spells` a unary expression is `Spells` a chain of one operand, at either level. -/
theorem Spells.inChain {tokens : List Token} {e : Expr} (h : Spells .unary tokens e) (c : Chain) :
    Spells (.chain c) tokens e := by
  have hproduct : Spells .product tokens e := .operand (c := .product) h
  cases c with
  | product => exact hproduct
  | sum => exact .operand (c := .sum) hproduct

theorem Spells.exists_cons {level : Level} {tokens : List Token} {e : Expr}
    (h : Spells level tokens e) : ∃ first rest, tokens = first :: rest := by
  induction h with
  | unary _ ih | operand _ ih => exact ih
  | join _ _ _ ihleft _ =>
    obtain ⟨first, rest, rfl⟩ := ihleft
    exact ⟨first, _, rfl⟩
  | _ => exact ⟨_, _, rfl⟩

/-- `joins` holds of none of the other kinds. -/
theorem Chain.ne_of_joins {c : Chain} {k other : TokenKind} (h : c.joins k = true)
    (hother : Chain.product.joins other = false ∧ Chain.sum.joins other = false) : k ≠ other := by
  rintro rfl
  cases c with
  | product => cases h.symm.trans hother.1
  | sum => cases h.symm.trans hother.2

/-- `Spells`: no token of an expression ends a statement. -/
theorem Spells.inside {level : Level} {tokens : List Token} {e : Expr} (h : Spells level tokens e) :
    ∀ t ∈ tokens, t.kind ≠ .endOfFile ∧ t.kind ≠ .newline := by
  induction h with
  | number hkind | reference hkind => grind
  | call hname hopening _ hclosing ih => grind
  | group hopening _ hclosing ih => grind
  | negative hminus hkind => grind
  | negation hminus _ _ ih => grind
  | unary _ ih | operand _ ih => exact ih
  | join _ hoperator _ ihleft ihright =>
    have hend := @Chain.ne_of_joins _ _ .endOfFile hoperator ⟨rfl, rfl⟩
    have hnewline := @Chain.ne_of_joins _ _ .newline hoperator ⟨rfl, rfl⟩
    grind

/-- `SpellsStatement`: no token of a statement ends one. -/
theorem SpellsStatement.inside {tokens : List Token} {s : Stmt} (h : SpellsStatement tokens s) :
    ∀ t ∈ tokens, t.kind ≠ .endOfFile ∧ t.kind ≠ .newline := by
  cases h with
  | exit hword hvalue => have := hvalue.inside; grind
  | assign hname hsign hvalue => have := hvalue.inside; grind
  | loop hword hname hjoint hrange => have := hrange.inside; grind
  | endLoop hword => grind

/-- `WellLexed` passes to what follows a phrase. -/
theorem WellLexed.rest {taken rest : List Token} (h : WellLexed (taken ++ rest))
    (htaken : ∀ t ∈ taken, t.kind ≠ .endOfFile) : WellLexed rest := by
  refine ⟨fun t ht => h.each t (List.mem_append_right taken ht), ?_⟩
  obtain ⟨body, final, htokens, hfinal, hbody⟩ := h.ends
  -- the end was not taken
  rcases List.append_eq_append_iff.mp htokens with ⟨body', rfl, hrest⟩ | ⟨more, rfl, hrest⟩
  · exact ⟨body', final, hrest, hfinal, fun t ht => hbody t (List.mem_append_right taken ht)⟩
  · cases more with
    | nil => exact ⟨[], final, hrest.symm, hfinal, fun t ht => nomatch ht⟩
    | cons t more =>
      obtain ⟨rfl, -⟩ := List.cons.inj hrest
      exact absurd hfinal (htaken _ (by simp))

/-- `WellLexed` tokens start with the end only where they are the end. -/
theorem WellLexed.exists_cons {tokens : List Token} (h : WellLexed tokens) :
    ∃ t rest, tokens = t :: rest ∧ (t.kind = .endOfFile → rest = []) := by
  obtain ⟨body, final, rfl, hfinal, hbody⟩ := h.ends
  cases body with
  | nil => exact ⟨final, [], rfl, fun _ => rfl⟩
  | cons t body => exact ⟨t, body ++ [final], rfl, fun ht => absurd ht (hbody t (by simp))⟩

end ZebLang
