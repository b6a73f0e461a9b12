/-
  Where the parser cannot say what is wrong.

  A message of the parser names the token that does not fit, or the literal that is out of range.  If
  that is a number with too many digits to be written, there is no message.  `Reading` shows that such a
  number stands where an operand, a statement or the end of a statement is due.  Here is the converse:
  whatever starts a phrase and stops at such a number makes the readers fail with it.

  The readers follow the rules of `Awaits` one by one.  Only in a chain the tokens before the operator
  are a whole phrase; they are read as such, and the reader stands at its loop (`accepts_of_spells`).
-/

import ZebLang.Proofs.Program.Acceptance

namespace ZebLang

namespace Parser

variable {last t : Token} {after : List Token}

/-! ## The number itself -/

/-- `literal` cannot refuse a number that cannot be written. -/
theorem literal_of_huge {v : Int} {place : Token} (h : Text.digitLimit < Text.digitCount v) :
    literal (.int v) place = .error .unwritable := by
  have hbetween : (Datum.int v).between? Cause.literalMin Cause.literalMax = some false := by
    have hfits : ¬(Cause.literalMin ≤ v ∧ v ≤ Cause.literalMax) := by
      rintro ⟨hmin, hmax⟩
      exact absurd (length_toDigits_of_fits hmin hmax) (Nat.not_le.mpr h)
    show some (decide (Cause.literalMin ≤ v) && decide (v ≤ Cause.literalMax)) = some false
    rw [← Bool.decide_and, decide_eq_false hfits]
  have hplain : (Datum.int v).plain = .error .unwritable := writeInt_of_huge h
  unfold literal
  rw [hbetween]
  dsimp only
  rw [hplain]
  rfl

/-- `unexpected` cannot name a number that cannot be written. -/
theorem unexpected_of_huge (h : t.IsHuge) (expected : String) : unexpected t expected = .unwritable := by
  obtain ⟨hkind, n, hvalue, hhuge⟩ := h
  have hplain : t.value.plain = .error .unwritable := by
    rw [hvalue]
    exact writeInt_of_huge hhuge
  have hdescribe : describe t = .error .unwritable := by
    unfold describe
    rw [if_neg (by rw [hkind]; decide), hplain]
    rfl
  unfold unexpected
  rw [hdescribe]

/-! ## Expressions -/

/-- `Awaits`: the beginning of an operand in front of a number is no minus, unless the minus belongs to it.
    -/
theorem peekKind_ne_minus {before : List Token} (h : Awaits .primary before) (ht : t.kind = .number) :
    peekKind last (before ++ t :: after) ≠ .minus := by
  cases h with
  | here => exact fun hpeek => by cases ht.symm.trans hpeek
  | call hname => exact fun hpeek => by cases hname.symm.trans hpeek
  | group hopening => exact fun hpeek => by cases hopening.symm.trans hpeek

theorem first_ne_number {first : Token} {before : List Token} (h : Awaits .unary (first :: before)) :
    first.kind ≠ .number := by
  cases h with
  | minus hminus => rw [hminus]; decide
  | unary h =>
    cases h with
    | call hname => rw [hname]; decide
    | group hopening => rw [hopening]; decide

/-- `chain` reads the tokens before an operator, and `chainTail` goes on from there. -/
theorem chain_of_join {c : Chain} {left rest : List Token} {operator : Token} {l : Expr}
    (hleft : Spells (.chain c) left l) (hoperator : c.joins operator.kind = true)
    (hrest : read last c.operand rest = .error .unwritable) :
    chain c last (left ++ operator :: rest) = .error .unwritable := by
  refine (accepts_of_spells hleft (operator :: rest) (Chain.goesOn_operand hoperator)).eq_error ?_
  have hpeek : c.joins (peekKind last (operator :: rest)) = true := hoperator
  rw [chainTail, hpeek, if_pos rfl, take_bind]
  dsimp only
  rw [operand_eq_read, hrest]
  rfl

/-- `read` on a number that cannot be written, where an operand is due. -/
theorem read_of_awaits {level : Level} {before : List Token} (h : Awaits level before) (ht : t.IsHuge) :
    read last level (before ++ t :: after) = .error .unwritable := by
  obtain ⟨hkind, n, hvalue, hhuge⟩ := id ht
  induction h with
  | here =>
    show primary last (t :: after) = _
    rw [primary_of_number hkind, hvalue, literal_of_huge hhuge]
    rfl
  | @call name opening before hname hopening h ih =>
    show primary last (name :: opening :: (before ++ t :: after)) = _
    rw [primary_of_call hname hopening, show chain .sum last (before ++ t :: after) = _ from ih]
    rfl
  | @group opening before hopening h ih =>
    show primary last (opening :: (before ++ t :: after)) = _
    rw [primary_of_group hopening, show chain .sum last (before ++ t :: after) = _ from ih]
    rfl
  | @minus minus before hminus h ih =>
    cases before with
    | nil =>
      -- the minus belongs to the number
      have hnegative : negativeLiteral minus t = .error .unwritable := by
        unfold negativeLiteral
        rw [hvalue]
        refine literal_of_huge ?_
        unfold Text.digitCount at hhuge ⊢
        rw [Int.natAbs_neg]
        exact hhuge
      show unary last (minus :: t :: after) = _
      rw [unary_of_negative hminus hkind, hnegative]
      rfl
    | cons first before =>
      have hnumber : peekKind last (first :: (before ++ t :: after)) ≠ .number := first_ne_number h
      show unary last (minus :: first :: (before ++ t :: after)) = _
      rw [unary_of_negation hminus hnumber, show unary last (first :: (before ++ t :: after)) = _ from ih]
      rfl
  | @unary before h ih =>
    show unary last (before ++ t :: after) = _
    rw [unary, if_neg (peekKind_ne_minus h hkind)]
    exact ih
  | @operand c before h ih =>
    show chain c last (before ++ t :: after) = _
    rw [chain, operand_eq_read, ih]
    rfl
  | @join c operator left before l hleft hoperator h ih =>
    show chain c last (left ++ operator :: before ++ t :: after) = _
    rw [List.append_assoc]
    exact chain_of_join hleft hoperator ih

/-! ## Statements -/

/-- `statement` on a number that cannot be written, where a statement or an operand of it is due. -/
theorem statement_of_awaits {before : List Token} (h : AwaitsStatement before) (ht : t.IsHuge) :
    statement last (before ++ t :: after) = .error .unwritable := by
  cases h with
  | here =>
    have hpeek : (peek last (t :: after)).kind = .number := ht.1
    show statement last (t :: after) = _
    rw [statement, hpeek]
    dsimp only
    rw [peek_cons, unexpected_of_huge ht]
  | @exit word before hword h =>
    have hread : chain .sum last (before ++ t :: after) = _ := read_of_awaits h ht
    show statement last (word :: (before ++ t :: after)) = _
    rw [statement_of_exit hword, hread]
    rfl
  | @assign name sign before hname hsign h =>
    have hread : chain .sum last (before ++ t :: after) = _ := read_of_awaits h ht
    show statement last (name :: sign :: (before ++ t :: after)) = _
    rw [statement_of_assign hname hsign, hread]
    rfl
  | @loop word name joint before hword hname hjoint h =>
    have hread : chain .sum last (before ++ t :: after) = _ := read_of_awaits h ht
    show statement last (word :: name :: joint :: (before ++ t :: after)) = _
    rw [statement_of_loop hword hname hjoint, hread]
    rfl

/-- `AwaitsStatement`: what starts a statement ends no file and separates no statements. -/
theorem peekKind_of_awaitsStatement {before : List Token} (h : AwaitsStatement before)
    (ht : t.kind = .number) : peekKind last (before ++ t :: after) ≠ .endOfFile ∧
      peekKind last (before ++ t :: after) ≠ .newline := by
  have hother : ∃ kind, peekKind last (before ++ t :: after) = kind ∧ kind ≠ .endOfFile ∧
      kind ≠ .newline := by
    cases h with
    | here => exact ⟨_, ht, by decide⟩
    | exit hword => exact ⟨_, hword, by decide⟩
    | assign hname => exact ⟨_, hname, by decide⟩
    | loop hword => exact ⟨_, hword, by decide⟩
  obtain ⟨kind, hpeek, hkind⟩ := hother
  rw [hpeek]
  exact hkind

/-- `statements` on a number that cannot be written, where a statement, an operand or the end of a statement
    is due. -/
theorem statements_of_awaits {before : List Token} (h : AwaitsProgram before) (ht : t.IsHuge) :
    statements last (before ++ t :: after) = .error .unwritable := by
  induction h with
  | @within before h =>
    obtain ⟨hend, hnewline⟩ := @peekKind_of_awaitsStatement last t after before h ht.1
    rw [statements]
    split
    next hkind => exact absurd hkind hend
    next hkind => exact absurd hkind hnewline
    next =>
      rw [statement_of_awaits h ht]
      rfl
  | @ended before s h =>
    have hpeek : peekKind last (t :: after) = .number := ht.1
    rw [statements_of_statement h (hpeek ▸ rfl), hpeek]
    dsimp only
    rw [peek_cons, unexpected_of_huge ht]
  | @blank separator before hseparator h ih =>
    have hpeek : peekKind last (separator :: (before ++ t :: after)) = .newline := hseparator
    show statements last (separator :: (before ++ t :: after)) = _
    rw [statements, hpeek]
    dsimp only
    rw [take_bind, ih]
  | @next separator tokens before s hstatement hseparator h ih =>
    have hpeek : peekKind last (separator :: (before ++ t :: after)) = .newline := hseparator
    rw [List.append_assoc, List.cons_append,
      statements_of_statement hstatement (hpeek ▸ rfl), hpeek]
    dsimp only
    rw [take_bind, ih]
    rfl

end Parser

/-- `parseTokens` fails with `unwritable` just if it comes to a number that cannot be written, where a
    statement, an operand or the end of a statement is due. -/
theorem parseTokens_eq_unwritable_iff {tokens : List Token} (hlexed : WellLexed tokens) :
    parseTokens tokens = .error .unwritable ↔
      ∃ before t after, tokens = before ++ t :: after ∧ AwaitsProgram before ∧ t.IsHuge := by
  constructor
  · intro h
    have hread := reads_parseTokens hlexed
    rw [h] at hread
    cases hread with
    | unwritable htokens hdue hhuge => exact ⟨_, _, _, htokens, hdue, hhuge⟩
  · rintro ⟨before, t, after, rfl, hdue, hhuge⟩
    unfold parseTokens
    cases hfinal : (before ++ t :: after).getLast? with
    | none => simp at hfinal
    | some last => exact Parser.statements_of_awaits hdue hhuge

end ZebLang
