/-
  What the readers of the parser read.

  A reader that succeeds took tokens that spell what it gives (`Reads`).  A reader that fails reports a
  fault of grammar at a place, unless its message would have to write a number that is too long.

  A reader is put together from others in sequence, and so is what it reads (`Reads.bind`): the tokens of
  the parts stand one after the other.  The loop of a chain carries what was read before it, which is such a
  chain already; each turn makes it longer.

  All readers of expressions are taken together (`Readers`), by induction on how many tokens there are:
  each calls the others on fewer tokens, or a tighter one on the same.
-/

import ZebLang.Program.Parser
import ZebLang.Proofs.Program.Grammar

namespace ZebLang

/-! ## Numbers as text -/

/-- `toDigits` of a number in the range of literals is short. -/
theorem length_toDigits_of_fits {n : Int} (hlow : Cause.literalMin ≤ n) (hhigh : n ≤ Cause.literalMax) :
    (Nat.toDigits 10 n.natAbs).length ≤ Text.digitLimit := by
  have hshort : (Nat.toDigits 10 n.natAbs).length ≤ 19 := by
    rw [Nat.length_toDigits_le_iff (by decide) (by decide)]
    unfold Cause.literalMin at hlow
    unfold Cause.literalMax at hhigh
    omega
  exact Nat.le_trans hshort (by decide)

/-- `writeInt` writes every number in the range of literals. -/
theorem writeInt_of_fits {n : Int} (hlow : Cause.literalMin ≤ n) (hhigh : n ≤ Cause.literalMax) :
    writeInt n = .ok (Text.decimal n) := by
  unfold writeInt Text.decimal? Text.digitCount
  rw [if_pos (length_toDigits_of_fits hlow hhigh)]

/-- `writeInt` fails with `unwritable`, on a number with too many digits. -/
theorem writeInt_eq_error {v : Int} {fault : Fault} (h : writeInt v = .error fault) :
    fault = .unwritable ∧ Text.digitLimit < Text.digitCount v := by
  unfold writeInt Text.decimal? at h
  by_cases hfits : Text.digitCount v ≤ Text.digitLimit
  · rw [if_pos hfits] at h
    cases h
  · rw [if_neg hfits] at h
    cases h
    exact ⟨rfl, by omega⟩

theorem writeInt_of_huge {v : Int} (h : Text.digitLimit < Text.digitCount v) :
    writeInt v = .error .unwritable := by
  unfold writeInt Text.decimal?
  rw [if_neg (by omega)]

/-! ## Faults -/

/-- `t.IsHuge`: a number with more digits than may be written. -/
def Token.IsHuge (t : Token) : Prop :=
  t.kind = .number ∧ ∃ n : Nat, t.value = .int n ∧ Text.digitLimit < Text.digitCount n

/-- `Refuses due tokens fault`: the faults with which tokens are refused.  A number that cannot be written
    stands where `due` says that something is due. -/
inductive Refuses (due : List Token → Prop) (tokens : List Token) : Fault → Prop where
  | report {cause : Cause} {place : Location} (hcause : cause.category = some .grammar) :
      Refuses due tokens (.report cause (some (.known place)))
  | unwritable {before after : List Token} {t : Token} (htokens : tokens = before ++ t :: after)
      (hdue : due before) (hhuge : t.IsHuge) : Refuses due tokens .unwritable

namespace Refuses

variable {due due' : List Token → Prop} {tokens : List Token} {fault : Fault}

/-- `Refuses` is monotone in what is due. -/
theorem mono (h : Refuses due tokens fault) (hmono : ∀ before, due before → due' before) :
    Refuses due' tokens fault := by
  cases h with
  | report hcause => exact .report hcause
  | unwritable htokens hdue hhuge => exact .unwritable htokens (hmono _ hdue) hhuge

/-- `Refuses` with tokens that were taken before in front. -/
theorem append {taken : List Token} (h : Refuses (fun before => due (taken ++ before)) tokens fault) :
    Refuses due (taken ++ tokens) fault := by
  cases h with
  | report hcause => exact .report hcause
  | unwritable htokens hdue hhuge =>
    exact .unwritable (by rw [htokens, List.append_assoc]) hdue hhuge

end Refuses

/-! ## Readers -/

/-- `Reads tokens spells due x`: the reader `x` takes tokens that spell what it gives, or `Refuses` them. -/
def Reads {α : Type} {bound : Nat} (tokens : List Token) (spells : List Token → α → Prop)
    (due : List Token → Prop) : Except Fault (Taken α bound) → Prop
  | .ok t => ∃ taken, tokens = taken ++ t.rest ∧ spells taken t.value
  | .error fault => Refuses due tokens fault

namespace Reads

variable {α β : Type} {bound bound' : Nat} {tokens : List Token} {due due' : List Token → Prop}

/-- `Reads` is monotone in what the tokens spell and what is due. -/
theorem mono {spells spells' : List Token → α → Prop} {x : Except Fault (Taken α bound)}
    (h : Reads tokens spells due x) (hmono : ∀ taken a, spells taken a → spells' taken a)
    (hdue : ∀ before, due before → due' before) : Reads tokens spells' due' x := by
  cases x with
  | error fault => exact Refuses.mono h hdue
  | ok t =>
    obtain ⟨taken, htokens, hspells⟩ := h
    exact ⟨taken, htokens, hmono taken t.value hspells⟩

/-- `Reads` composes along `bind`. -/
theorem bind {spells : List Token → α → Prop} {spells' : List Token → β → Prop}
    {x : Except Fault (Taken α bound)} {k : Taken α bound → Except Fault (Taken β bound')}
    (hx : Reads tokens spells due x) (hdue : ∀ before, due before → due' before)
    (hk : ∀ t taken, tokens = taken ++ t.rest → spells taken t.value →
      Reads t.rest (fun more b => spells' (taken ++ more) b) (fun more => due' (taken ++ more)) (k t)) :
    Reads tokens spells' due' (x >>= k) := by
  cases x with
  | error fault => exact Refuses.mono hx hdue
  | ok t =>
    obtain ⟨taken, htokens, hspells⟩ := hx
    have hread := hk t taken htokens hspells
    show Reads tokens spells' due' (k t)
    cases hkt : k t with
    | error fault =>
      rw [hkt] at hread
      rw [htokens]
      exact Refuses.append hread
    | ok t' =>
      rw [hkt] at hread
      obtain ⟨more, hmore, hspells'⟩ := hread
      exact ⟨taken ++ more, by rw [htokens, hmore, List.append_assoc], hspells'⟩

/-- `Reads` after a value that takes no token. -/
theorem bindValue {spells : List Token → β → Prop} {x : Except Fault α}
    {k : α → Except Fault (Taken β bound)} (hx : ∀ fault, x = .error fault → Refuses due tokens fault)
    (hk : ∀ a, x = .ok a → Reads tokens spells due (k a)) : Reads tokens spells due (x >>= k) := by
  cases x with
  | error fault => exact hx fault rfl
  | ok a => exact hk a rfl

/-- `Reads` after the next token. -/
theorem cons {spells : List Token → β → Prop} {t : Token} {rest : List Token}
    {x : Except Fault (Taken β bound)}
    (h : Reads rest (fun more b => spells (t :: more) b) (fun more => due (t :: more)) x) :
    Reads (t :: rest) spells due x := by
  cases x with
  | error fault => exact @Refuses.append due rest fault [t] h
  | ok t' =>
    obtain ⟨more, hmore, hspells⟩ := h
    exact ⟨t :: more, by rw [hmore]; rfl, hspells⟩

end Reads

namespace Parser

variable {last : Token} {tokens : List Token}

/-! ### The next token -/

/-- `peekKind` past the end is the end, so a token of another kind is there. -/
theorem cons_of_peekKind {kind : TokenKind} (hlast : last.kind = .endOfFile)
    (h : peekKind last tokens = kind) (hkind : kind ≠ .endOfFile) :
    ∃ t rest, tokens = t :: rest ∧ t.kind = kind := by
  cases tokens with
  | nil => exact absurd (h.symm.trans hlast) hkind
  | cons t rest => exact ⟨t, rest, rfl, h⟩

@[simp] theorem peek_cons (t : Token) (rest : List Token) : peek last (t :: rest) = t := rfl

/-- `peek` is the first token of the list, or the end. -/
theorem cons_of_peek (hlast : last.kind = .endOfFile) (h : (peek last tokens).kind ≠ .endOfFile) :
    ∃ rest, tokens = peek last tokens :: rest := by
  cases tokens with
  | nil => exact absurd hlast h
  | cons t rest => exact ⟨rest, rfl⟩

theorem isLexed_peek (hlast : last.kind = .endOfFile) (hlexed : ∀ t ∈ tokens, t.IsLexed) :
    (peek last tokens).IsLexed := by
  cases tokens with
  | nil =>
    show last.IsLexed
    unfold Token.IsLexed
    rw [hlast]
    trivial
  | cons t rest => exact hlexed t List.mem_cons_self

/-- `take` hands on the next token. -/
theorem take_bind {β : Type} {t : Token} {rest : List Token}
    (k : Taken Token (t :: rest).length → Except Fault β) :
    (take (t :: rest) >>= k) = k ⟨t, rest, Nat.lt_succ_self _⟩ := rfl

theorem ok_bind {α β : Type} (a : α) (k : α → Except Fault β) : (.ok a >>= k) = k a := rfl

/-- `Refuses` for a token that does not fit. -/
theorem refuses_unexpected {due : List Token → Prop} {t : Token} (hlexed : t.IsLexed)
    (hfirst : t.kind ≠ .endOfFile → ∃ after, tokens = t :: after) (hdue : due []) (expected : String) :
    Refuses due tokens (unexpected t expected) := by
  unfold unexpected
  split
  next => exact .report rfl
  next fault hdescribe =>
    unfold describe at hdescribe
    split at hdescribe
    next => cases hdescribe
    next hend =>
      -- only a number has a text that may be too long
      have hplain : ∀ word, t.value = .text word → False := by
        intro word hword
        rw [hword] at hdescribe
        cases hdescribe
      have hnumber : t.kind = .number ∧ ∃ n : Nat, t.value = .int n := by
        rcases TokenKind.number_or_text hlexed hend with hnumber | ⟨word, hword⟩
        · exact hnumber
        · exact (hplain word hword).elim
      obtain ⟨hkind, n, hn⟩ := hnumber
      rw [hn] at hdescribe
      have hwrite : writeInt n = .error fault := by
        cases hw : writeInt n with
        | ok text =>
          have hstructural : (Datum.int n).plain = .ok text := hw
          rw [hstructural] at hdescribe
          cases hdescribe
        | error other =>
          have hstructural : (Datum.int n).plain = .error other := hw
          rw [hstructural] at hdescribe
          cases hdescribe
          rfl
      obtain ⟨rfl, hhuge⟩ := writeInt_eq_error hwrite
      obtain ⟨after, hafter⟩ := hfirst hend
      exact @Refuses.unwritable due tokens [] after t hafter hdue ⟨hkind, n, hn, hhuge⟩

/-- `Reads` for `expect`: the token is taken, or it is refused that it is missing. -/
theorem reads_expect {kind : TokenKind} {wanted : String} (hlast : last.kind = .endOfFile)
    (hkind : kind ≠ .endOfFile) :
    Reads tokens (fun taken t => taken = [t] ∧ t.kind = kind) (fun _ => False)
      (expect last kind wanted tokens) := by
  unfold expect
  split
  next h =>
    obtain ⟨t, rest, rfl, ht⟩ := cons_of_peekKind hlast h hkind
    exact ⟨[t], rfl, rfl, ht⟩
  next => exact .report rfl

/-! ### Literals -/

/-- `literal` accepts an integer that fits. -/
theorem literal_of_fits {v : Int} {t : Token} (hmin : Cause.literalMin ≤ v)
    (hmax : v ≤ Cause.literalMax) : literal (.int v) t = .ok (.literal (.int v) t.location) := by
  have hbetween : (Datum.int v).between? Cause.literalMin Cause.literalMax = some true := by
    show some (decide (Cause.literalMin ≤ v) && decide (v ≤ Cause.literalMax)) = some true
    rw [decide_eq_true hmin, decide_eq_true hmax]
    rfl
  unfold literal
  rw [hbetween]

/-- `literal` accepts an integer if it fits, and refuses it if not. -/
theorem literal_cases (v : Int) (t : Token) :
    (Cause.literalMin ≤ v ∧ v ≤ Cause.literalMax ∧
      literal (.int v) t = .ok (.literal (.int v) t.location)) ∨
    (∃ cause, cause.category = some .grammar ∧
      literal (.int v) t = .error (.report cause (some (.known t.location)))) ∨
    (Text.digitLimit < Text.digitCount v ∧ literal (.int v) t = .error .unwritable) := by
  by_cases hfits : Cause.literalMin ≤ v ∧ v ≤ Cause.literalMax
  · exact .inl ⟨hfits.1, hfits.2, literal_of_fits hfits.1 hfits.2⟩
  · have hbetween : (Datum.int v).between? Cause.literalMin Cause.literalMax = some false := by
      show some (decide (Cause.literalMin ≤ v) && decide (v ≤ Cause.literalMax)) = some false
      rw [← Bool.decide_and, decide_eq_false hfits]
    refine .inr ?_
    unfold literal
    rw [hbetween]
    cases hwrite : writeInt v with
    | ok text =>
      have hplain : (Datum.int v).plain = .ok text := hwrite
      rw [hplain]
      exact .inl ⟨_, rfl, rfl⟩
    | error fault =>
      have hplain : (Datum.int v).plain = .error fault := hwrite
      obtain ⟨rfl, hhuge⟩ := writeInt_eq_error hwrite
      rw [hplain]
      exact .inr ⟨hhuge, rfl⟩

/-- `literal` accepts only integers that fit. -/
theorem literal_eq_ok {v : Int} {t : Token} {e : Expr} (h : literal (.int v) t = .ok e) :
    Cause.literalMin ≤ v ∧ v ≤ Cause.literalMax ∧ e = .literal (.int v) t.location := by
  rcases literal_cases v t with ⟨hmin, hmax, hok⟩ | ⟨cause, hcause, herror⟩ | ⟨hhuge, herror⟩
  · rw [hok] at h
    cases h
    exact ⟨hmin, hmax, rfl⟩
  · rw [herror] at h
    cases h
  · rw [herror] at h
    cases h

/-- `IsLexed`: a number token carries a number. -/
theorem number_of_isLexed {t : Token} (hlexed : t.IsLexed) (hkind : t.kind = .number) :
    ∃ n : Nat, t.value = .int n := by
  unfold Token.IsLexed at hlexed
  rw [hkind] at hlexed
  exact hlexed

/-- `Refuses` for a number that is no literal. -/
theorem refuses_literal {due : List Token → Prop} {before after : List Token} {t place : Token} {n : Nat}
    {v : Int} {fault : Fault} (hdue : due before) (hkind : t.kind = .number) (hvalue : t.value = .int n)
    (hv : v.natAbs = n) (h : literal (.int v) place = .error fault) :
    Refuses due (before ++ t :: after) fault := by
  rcases literal_cases v place with ⟨-, -, hok⟩ | ⟨cause, hcause, herror⟩ | ⟨hhuge, herror⟩
  · rw [hok] at h
    cases h
  · rw [herror] at h
    cases h
    exact .report hcause
  · rw [herror] at h
    cases h
    refine .unwritable rfl hdue ⟨hkind, n, hvalue, ?_⟩
    unfold Text.digitCount at hhuge ⊢
    rw [hv] at hhuge
    exact hhuge

/-! ### Expressions -/

/-- `read last level`: the reader of a level. -/
def read (last : Token) : Level → (tokens : List Token) → Except Fault (Taken Expr tokens.length)
  | .primary => primary last
  | .unary => unary last
  | .chain c => chain c last

/-- `operand` of a chain is the reader of the level below. -/
theorem operand_eq_read (c : Chain) : operand c last tokens = read last c.operand tokens := by
  cases c with
  | product => rw [operand]; rfl
  | sum => rw [operand]; rfl

/-- `Readers last tokens`: what the readers of expressions do on a list of tokens. -/
structure Readers (last : Token) (tokens : List Token) : Prop where
  read : ∀ level, Reads tokens (Spells level) (Awaits level) (read last level tokens)
  chainTail : ∀ c before left, Spells (.chain c) before left →
    Reads tokens (fun taken e => Spells (.chain c) (before ++ taken) e)
      (fun taken => Awaits (.chain c) (before ++ taken)) (chainTail c last left tokens)

/-- `Reads` for `primary`, from the readers on what is left. -/
theorem reads_primary (hlast : last.kind = .endOfFile) (hlexed : ∀ t ∈ tokens, t.IsLexed)
    (ih : ∀ rest, rest.length < tokens.length → (∀ t ∈ rest, t.IsLexed) → Readers last rest) :
    Reads tokens (Spells .primary) (Awaits .primary) (primary last tokens) := by
  rw [primary]
  split
  next hkind =>
    obtain ⟨t, rest, rfl, ht⟩ := cons_of_peekKind hlast hkind (by decide)
    obtain ⟨n, hn⟩ := number_of_isLexed (hlexed t (by simp)) ht
    rw [take_bind, hn]
    refine Reads.bindValue (fun fault hfault => ?_) fun e he => ?_
    · exact @refuses_literal _ [] rest t t n n fault .here ht hn (by simp) hfault
    · obtain ⟨-, hmax, rfl⟩ := literal_eq_ok he
      exact ⟨[t], rfl, .number ht hn hmax⟩
  next hkind =>
    obtain ⟨name, rest, rfl, hname⟩ := cons_of_peekKind hlast hkind (by decide)
    rw [take_bind]
    split
    next hcalled =>
      -- a name with an opening parenthesis behind it is called
      obtain ⟨opening, inside, rfl, hopening⟩ := cons_of_peekKind hlast hcalled (by decide)
      rw [take_bind]
      have hinside := ih inside (Nat.lt_succ_of_lt (Nat.lt_succ_self _)) fun t ht => hlexed t (by simp [ht])
      refine Reads.cons (Reads.cons ((hinside.read .sum).bind (fun _ h => .call hname hopening h)
        fun argument taken htaken hargument => ?_))
      refine (reads_expect hlast (by decide)).bind (fun _ => False.elim)
        fun closing more hmore hclosing => ?_
      obtain ⟨rfl, hclosing⟩ := hclosing
      exact ⟨[], rfl, by simpa using Spells.call hname hopening hargument hclosing⟩
    next => exact ⟨[name], rfl, .reference hname⟩
  next hkind =>
    -- a sum in parentheses
    obtain ⟨opening, inside, rfl, hopening⟩ := cons_of_peekKind hlast hkind (by decide)
    rw [take_bind]
    have hinside := ih inside (by simp) fun t ht => hlexed t (by simp [ht])
    refine Reads.cons ((hinside.read .sum).bind (fun _ h => .group hopening h)
      fun inner taken htaken hinner => ?_)
    refine (reads_expect hlast (by decide)).bind (fun _ => False.elim)
      fun closing more hmore hclosing => ?_
    obtain ⟨rfl, hclosing⟩ := hclosing
    exact ⟨[], rfl, by simpa using Spells.group hopening hinner hclosing⟩
  next => exact refuses_unexpected (isLexed_peek hlast hlexed) (cons_of_peek hlast) .here _

/-- `Reads` for `unary`, from the readers on what is left. -/
theorem reads_unary (hlast : last.kind = .endOfFile) (hlexed : ∀ t ∈ tokens, t.IsLexed)
    (ih : ∀ rest, rest.length < tokens.length → (∀ t ∈ rest, t.IsLexed) → Readers last rest)
    (hprimary : Reads tokens (Spells .primary) (Awaits .primary) (primary last tokens)) :
    Reads tokens (Spells .unary) (Awaits .unary) (unary last tokens) := by
  rw [unary]
  split
  next hkind =>
    obtain ⟨minus, rest, rfl, hminus⟩ := cons_of_peekKind hlast hkind (by decide)
    rw [take_bind]
    split
    next hnumber =>
      -- the minus belongs to the number
      obtain ⟨t, rest, rfl, ht⟩ := cons_of_peekKind hlast hnumber (by decide)
      obtain ⟨n, hn⟩ := number_of_isLexed (hlexed t (by simp)) ht
      have hnegative : negativeLiteral minus t = literal (.int (-n)) minus := by
        unfold negativeLiteral
        rw [hn]
        rfl
      rw [take_bind]
      dsimp only
      rw [hnegative]
      refine Reads.bindValue (fun fault hfault => ?_) fun e he => ?_
      · have hdue : Awaits .unary [minus] := .minus hminus (.unary .here)
        exact refuses_literal hdue ht hn (by simp) hfault
      · obtain ⟨hmin, -, rfl⟩ := literal_eq_ok he
        exact ⟨[minus, t], rfl, .negative hminus ht hn (by omega)⟩
    next hnumber =>
      have hrest := ih rest (by simp) fun t ht => hlexed t (by simp [ht])
      refine Reads.cons ((hrest.read .unary).bind (fun _ h => .minus hminus h)
        fun operand taken htaken hoperand => ?_)
      refine ⟨[], rfl, ?_⟩
      obtain ⟨first, more, rfl⟩ := hoperand.exists_cons
      have hfirst : first.kind ≠ .number := by
        rw [htaken] at hnumber
        exact hnumber
      simpa using Spells.negation hminus hfirst hoperand
  next => exact hprimary.mono (fun _ _ h => .unary h) fun _ h => .unary h

/-- `Reads` for `chainTail`: what was read before it is such a chain, and so is that with more behind it. -/
theorem reads_chainTail {c : Chain} (hlast : last.kind = .endOfFile) (hlexed : ∀ t ∈ tokens, t.IsLexed)
    (ih : ∀ rest, rest.length < tokens.length → (∀ t ∈ rest, t.IsLexed) → Readers last rest)
    {before : List Token} {left : Expr} (hleft : Spells (.chain c) before left) :
    Reads tokens (fun taken e => Spells (.chain c) (before ++ taken) e)
      (fun taken => Awaits (.chain c) (before ++ taken)) (chainTail c last left tokens) := by
  rw [chainTail]
  split
  next hkind =>
    obtain ⟨operator, rest, rfl, hsame⟩ := cons_of_peekKind hlast rfl (Chain.ne_of_joins hkind ⟨rfl, rfl⟩)
    have hoperator : c.joins operator.kind = true := by rw [hsame]; exact hkind
    have hrest := ih rest (by simp) fun t ht => hlexed t (by simp [ht])
    rw [take_bind]
    dsimp only
    rw [operand_eq_read]
    refine Reads.cons ((hrest.read c.operand).bind (fun _ h => .join hleft hoperator h)
      fun right taken htaken hright => ?_)
    -- with the operator and its right side, what was read is such a chain again
    have hleft' := Spells.join hleft hoperator hright
    have hless := ih right.rest (by have := right.lt; simp; omega) fun t ht =>
      hlexed t (by rw [htaken]; simp [ht])
    refine (hless.chainTail _ _ _ hleft').bind (fun _ h => by simpa using h)
      fun all more hmore hall => ?_
    exact ⟨[], rfl, by simpa using hall⟩
  next => exact ⟨[], rfl, by simpa using hleft⟩

/-- `Reads` for `chain`, from that of its operands. -/
theorem reads_chain {c : Chain} (hlexed : ∀ t ∈ tokens, t.IsLexed)
    (ih : ∀ rest, rest.length < tokens.length → (∀ t ∈ rest, t.IsLexed) → Readers last rest)
    (hoperand : Reads tokens (Spells c.operand) (Awaits c.operand) (read last c.operand tokens)) :
    Reads tokens (Spells (.chain c)) (Awaits (.chain c)) (chain c last tokens) := by
  rw [chain, operand_eq_read]
  refine hoperand.bind (fun _ h => .operand h) fun left taken htaken hleft => ?_
  have hless := ih left.rest left.lt fun t ht => hlexed t (by rw [htaken]; simp [ht])
  refine (hless.chainTail _ _ _ (.operand hleft)).bind (fun _ h => h) fun all more hmore hall => ?_
  exact ⟨[], rfl, by simpa using hall⟩

/-- `Readers` on every list of tokens, by induction on its length. -/
theorem readers (hlast : last.kind = .endOfFile) (tokens : List Token)
    (hlexed : ∀ t ∈ tokens, t.IsLexed) : Readers last tokens := by
  have ih : ∀ rest, rest.length < tokens.length → (∀ t ∈ rest, t.IsLexed) → Readers last rest :=
    fun rest _ hrest => readers hlast rest hrest
  have hprimary := reads_primary hlast hlexed ih
  have hunary := reads_unary hlast hlexed ih hprimary
  have hproduct := @reads_chain _ _ .product hlexed ih hunary
  have hsum := @reads_chain _ _ .sum hlexed ih hproduct
  refine ⟨fun level => ?_, fun c _ _ hleft => reads_chainTail hlast hlexed ih hleft⟩
  cases level with
  | primary => exact hprimary
  | unary => exact hunary
  | chain c =>
    cases c with
    | product => exact hproduct
    | sum => exact hsum
termination_by tokens.length

/-! ### Statements -/

/-- `Reads` for `statement`. -/
theorem reads_statement (hlast : last.kind = .endOfFile) (hlexed : ∀ t ∈ tokens, t.IsLexed) :
    Reads tokens SpellsStatement AwaitsStatement (statement last tokens) := by
  have hunexpected := fun expected => @refuses_unexpected tokens AwaitsStatement _
    (isLexed_peek hlast hlexed) (cons_of_peek hlast) .here expected
  unfold statement
  dsimp only
  split
  next hkind =>
    obtain ⟨word, rest, rfl, hword⟩ := cons_of_peekKind hlast hkind (by decide)
    rw [take_bind]
    have hrest := readers hlast rest fun t ht => hlexed t (by simp [ht])
    refine Reads.cons ((hrest.read .sum).bind (fun _ h => .exit hword h) fun value taken htaken hvalue => ?_)
    exact ⟨[], rfl, by simpa using SpellsStatement.exit hword hvalue⟩
  next hkind =>
    obtain ⟨word, rest, rfl, hword⟩ := cons_of_peekKind hlast hkind (by decide)
    rw [take_bind]
    exact ⟨[word], rfl, .endLoop hword⟩
  next hkind =>
    obtain ⟨word, rest, rfl, hword⟩ := cons_of_peekKind hlast hkind (by decide)
    rw [take_bind]
    refine Reads.cons ((reads_expect hlast (by decide)).bind (fun _ => False.elim)
      fun name taken₁ htaken₁ hname => ?_)
    obtain ⟨rfl, hname⟩ := hname
    refine (reads_expect hlast (by decide)).bind (fun _ => False.elim)
      fun joint taken₂ htaken₂ hjoint => ?_
    obtain ⟨rfl, hjoint⟩ := hjoint
    have hrest : ∀ t ∈ joint.rest, t.IsLexed := fun t ht =>
      hlexed t (by rw [htaken₁, htaken₂]; simp [ht])
    refine ((readers hlast joint.rest hrest).read .sum).bind (fun _ h => .loop hword hname hjoint h)
      fun range taken₃ htaken₃ hrange => ?_
    exact ⟨[], rfl, by simpa using SpellsStatement.loop hword hname hjoint hrange⟩
  next hkind =>
    split
    next hassign =>
      obtain ⟨name, rest, rfl, hname⟩ := cons_of_peekKind hlast hkind (by decide)
      have hassign : peekKind last rest = .assign := hassign
      obtain ⟨sign, value, rfl, hsign⟩ := cons_of_peekKind hlast hassign (by decide)
      rw [take_bind, take_bind]
      have hrest := readers hlast value fun t ht => hlexed t (by simp [ht])
      refine Reads.cons (Reads.cons ((hrest.read .sum).bind (fun _ h => .assign hname hsign h)
        fun value taken htaken hvalue => ?_))
      exact ⟨[], rfl, by simpa using SpellsStatement.assign hname hsign hvalue⟩
    next => exact hunexpected _
  next => exact hunexpected _

/-- `ReadsAll tokens x`: of a whole text, statements that all tokens spell are read, or it is refused. -/
def ReadsAll (tokens : List Token) : Except Fault (List Stmt) → Prop
  | .ok program => SpellsProgram tokens program
  | .error fault => Refuses AwaitsProgram tokens fault

namespace ReadsAll

variable {rest : List Token} {separator : Token} {x : Except Fault (List Stmt)}

/-- `ReadsAll` with a separator that stands alone in front. -/
theorem blank (h : ReadsAll rest x) (hseparator : separator.kind = .newline) :
    ReadsAll (separator :: rest) x := by
  cases x with
  | ok program => exact .blank hseparator h
  | error fault =>
    refine @Refuses.append AwaitsProgram rest fault [separator] ?_
    exact Refuses.mono h fun _ hdue => .blank hseparator hdue

/-- `ReadsAll` with a statement and a separator in front. -/
theorem next {s : Stmt} (h : ReadsAll rest x) (hstatement : SpellsStatement tokens s)
    (hseparator : separator.kind = .newline) :
    ReadsAll (tokens ++ separator :: rest) (do return s :: (← x)) := by
  cases x with
  | ok program => exact .next hstatement hseparator h
  | error fault =>
    refine Refuses.append (@Refuses.append _ rest fault [separator] ?_)
    exact Refuses.mono h fun _ hdue => .next hstatement hseparator hdue

end ReadsAll

/-- `ReadsAll` for `statements`, by induction on the tokens. -/
theorem reads_statements (hlast : last.kind = .endOfFile) (tokens : List Token)
    (hlexed : WellLexed tokens) : ReadsAll tokens (statements last tokens) := by
  generalize hn : tokens.length = n
  induction n using Nat.strongRecOn generalizing tokens with
  | ind n ih =>
  obtain ⟨t, rest, rfl, hend⟩ := hlexed.exists_cons
  rw [List.length_cons] at hn
  rw [statements]
  split
  next hkind =>
    rw [hend hkind]
    exact .finish hkind
  next hkind =>
    have hkind : t.kind = .newline := hkind
    have hrest : WellLexed rest := @WellLexed.rest [t] rest hlexed (by simp [hkind])
    rw [take_bind]
    exact (ih rest.length (by omega) rest hrest rfl).blank hkind
  next =>
    have hstatement := reads_statement hlast hlexed.each
    cases hresult : statement last (t :: rest) with
    | error fault =>
      rw [hresult] at hstatement
      exact Refuses.mono hstatement fun _ h => .within h
    | ok first =>
      obtain ⟨value, after, hlt⟩ := first
      rw [hresult] at hstatement
      obtain ⟨taken, htokens, hspells⟩ := hstatement
      have htokens : t :: rest = taken ++ after := htokens
      rw [htokens] at hlexed
      have hafter := hlexed.rest fun t ht => (hspells.inside t ht).1
      obtain ⟨separator, more, rfl, hfinal⟩ := hafter.exists_cons
      -- a statement is followed by the end or by a separator
      rw [ok_bind]
      dsimp only
      rw [htokens]
      split
      next hkind =>
        rw [hfinal hkind]
        exact .last hspells hkind
      next hkind =>
        have hkind : separator.kind = .newline := hkind
        have hmore : WellLexed more := @WellLexed.rest [separator] more hafter (by simp [hkind])
        rw [List.length_cons, List.length_cons] at hlt
        rw [take_bind]
        exact (ih more.length (by omega) more hmore rfl).next hspells hkind
      next =>
        refine Refuses.append (refuses_unexpected (hafter.each separator (by simp)) ?_ ?_ _)
        · exact fun _ => ⟨more, rfl⟩
        · rw [List.append_nil]
          exact .ended hspells

end Parser

end ZebLang
