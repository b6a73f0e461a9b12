/-
  The parser as a walk along a list of tokens.

  The readers of the parser pass on the tokens that are left.  Here the same descent is written over the whole
  list and a position in it, which is what a machine does: it looks at the token at the position, past the end
  at the last one again, and only moves on from a token that is no end of file.  Nothing in such a walk
  shows that it comes to an end, so it is cut off after a number of rounds; every call of a reader and every
  turn of a loop is one round deeper.  It is cut off as well where a step would lead beyond a limit.

  A walk with rounds enough comes to what the readers come to (`walk_eq`).  With `r` tokens left, a primary
  expression takes at most `4 r + 1` rounds, and each level above it one more; the loops and the list of
  statements take `4 r + 1`, because a token is taken before they turn.  So `4 n + 1` rounds are enough for
  `n` tokens, and `n` is limit enough: the position never lies beyond the end.
-/

import ZebLang.Proofs.Program.Reading

namespace ZebLang

/-- What a walk came to: an outcome at a position (`done`), or nothing because it was cut off
    (`unfinished`). -/
inductive Walked (α : Type) where
  | done (outcome : Except Fault α) (position : Nat)
  | unfinished

/-- The course of a walk: the tokens, the last of them, and how far it may go. -/
structure Course where
  tokens : List Token
  last : Token
  limit : Nat

/-- A walk from a position on. -/
def Walk (α : Type) : Type := Nat → Walked α

namespace Walk

/-! ## Walks -/

section Walks

variable {α β : Type}

/-- One walk after another. -/
def andThen (x : Walk α) (k : α → Walk β) : Walk β := fun p =>
  match x p with
  | .done (.ok a) q => k a q
  | .done (.error fault) q => .done (.error fault) q
  | .unfinished => .unfinished

instance : Monad Walk where
  pure a := fun p => .done (.ok a) p
  bind := andThen

/-- No round is left. -/
def cut : Walk α := fun _ => .unfinished

/-- An outcome, without a step. -/
def settle (outcome : Except Fault α) : Walk α := fun p => .done outcome p

variable (c : Course)

/-- The token at a position; past the end, the last one again. -/
def tokenAt (p : Nat) : Token := c.tokens.getD p c.last

/-- The token so far ahead. -/
def peek (ahead : Nat) : Walk Token := fun p => .done (.ok (tokenAt c (p + ahead))) p

/-- A step past the next token, unless it is the end of the file.  Beyond the limit no step is allowed. -/
def advance : Walk Token := fun p =>
  if (tokenAt c p).kind = .endOfFile then .done (.ok c.last) p
  else
    match c.tokens[p]? with
    | some t => if p < c.limit then .done (.ok t) (p + 1) else .unfinished
    | none => .done (.error .outOfTokens) p

/-- A step past the next token, which must be of the given kind. -/
def expect (kind : TokenKind) (wanted : String) : Walk Token := do
  let next ← peek c 0
  if next.kind = kind then advance c
  else settle (.error (.report (.missingToken wanted) (some (.known next.location))))

mutual

/-- An expression of a level. -/
def read : Nat → Level → Walk Expr
  | 0, _ => cut
  | rounds + 1, .primary => do
      let next ← peek c 0
      match next.kind with
      | .number =>
          let _ ← advance c
          settle (Parser.literal next.value next)
      | .identifier =>
          let _ ← advance c
          let following ← peek c 0
          if following.kind = .leftParen then
            let _ ← advance c
            let argument ← read rounds .sum
            let _ ← expect c .rightParen ")"
            return .call next.value argument next.location
          else return .reference next.value next.location
      | .leftParen =>
          let _ ← advance c
          let inner ← read rounds .sum
          let _ ← expect c .rightParen ")"
          return inner
      | _ => settle (.error (Parser.unexpected next "an expression"))
  | rounds + 1, .unary => do
      let next ← peek c 0
      if next.kind = .minus then
        let minus ← advance c
        let following ← peek c 0
        if following.kind = .number then
          let number ← advance c
          settle (Parser.negativeLiteral minus number)
        else
          let operand ← read rounds .unary
          return .binary (.literal (.int 0) minus.location) (.text "-") operand minus.location
      else read rounds .primary
  | rounds + 1, .chain level => do
      let left ← read rounds level.operand
      chainLoop rounds level left

/-- What a chain goes on with after `left`. -/
def chainLoop : Nat → Chain → Expr → Walk Expr
  | 0, _, _ => cut
  | rounds + 1, level, left => do
      let next ← peek c 0
      if level.joins next.kind then
        let operator ← advance c
        let right ← read rounds level.operand
        chainLoop rounds level (.binary left operator.value right operator.location)
      else return left

end

def statement (rounds : Nat) : Walk Stmt := do
  let next ← peek c 0
  match next.kind with
  | .exitWord =>
      let _ ← advance c
      return .exit (← read c rounds .sum) next.location
  | .endforWord =>
      let _ ← advance c
      return .endLoop next.location
  | .forWord =>
      let _ ← advance c
      let name ← expect c .identifier "loop variable name"
      let _ ← expect c .inWord "in"
      return .loop name.value (← read c rounds .sum) next.location
  | .identifier =>
      let following ← peek c 1
      if following.kind = .assign then
        let name ← advance c
        let _ ← advance c
        return .assign name.value (← read c rounds .sum) next.location
      else settle (.error (Parser.unexpected next "'exit', 'for', 'endfor' or an assignment"))
  | _ => settle (.error (Parser.unexpected next "'exit', 'for', 'endfor' or an assignment"))

def statements : Nat → Walk (List Stmt)
  | 0 => cut
  | rounds + 1 => do
      let next ← peek c 0
      match next.kind with
      | .endOfFile => return []
      | .newline =>
          let _ ← advance c
          statements rounds
      | _ =>
          let first ← statement c rounds
          let following ← peek c 0
          match following.kind with
          | .endOfFile => return [first]
          | .newline =>
              let _ ← advance c
              return first :: (← statements rounds)
          | _ => settle (.error (Parser.unexpected following "end of statement"))

end Walks

/-! ## Walks that follow a reader -/

section Following

variable {α β : Type} {bound bound' : Nat} {c : Course} {p : Nat}

/-- `Tracks c w r`: the walk `w` has the outcome of the reader `r`, at the position of the tokens that `r`
    left. -/
def Tracks (c : Course) (w : Walked α) : Except Fault (Taken α bound) → Prop
  | .ok t => ∃ q, q ≤ c.tokens.length ∧ t.rest = c.tokens.drop q ∧ w = .done (.ok t.value) q
  | .error fault => ∃ q, q ≤ c.tokens.length ∧ w = .done (.error fault) q

theorem bind_ok {x : Walk α} {k : α → Walk β} {a : α} {q : Nat} (h : x p = .done (.ok a) q) :
    (x >>= k) p = k a q := by
  show andThen x k p = _
  rw [andThen, h]

theorem bind_error {x : Walk α} {k : α → Walk β} {fault : Fault} {q : Nat}
    (h : x p = .done (.error fault) q) : (x >>= k) p = .done (.error fault) q := by
  show andThen x k p = _
  rw [andThen, h]

/-- `bind` looks at its first walk from the position `p` only. -/
theorem bind_congr {x y : Walk α} {k : α → Walk β} (h : x p = y p) : (x >>= k) p = (y >>= k) p := by
  show andThen x k p = andThen y k p
  rw [andThen, andThen, h]

theorem peek_bind {k : Token → Walk β} :
    (peek c 0 >>= k) p = k (tokenAt c p) p := rfl

theorem peek_ahead_bind {k : Token → Walk β} :
    (peek c 1 >>= k) p = k (tokenAt c (p + 1)) p := rfl

/-- `Comes c w r`: the walk `w` has the outcome `r`, at a position that is not beyond the end. -/
def Comes (c : Course) (w : Walked α) (r : Except Fault α) : Prop :=
  ∃ q, q ≤ c.tokens.length ∧ w = .done r q

/-- `Tracks` for a walk after a walk, with any relation `Shown` for the whole: `Shown` has to hold of a
    fault of the first part. -/
theorem Tracks.bind_of {γ : Type} {Shown : Walked β → Except Fault γ → Prop} {x : Walk α}
    {r : Except Fault (Taken α bound)} {k : α → Walk β} {next : Taken α bound → Except Fault γ}
    (hfault : ∀ fault q, q ≤ c.tokens.length → Shown (.done (.error fault) q) (.error fault))
    (hx : Tracks c (x p) r)
    (hk : ∀ a q lt, q ≤ c.tokens.length → Shown (k a q) (next ⟨a, c.tokens.drop q, lt⟩)) :
    Shown ((x >>= k) p) (r >>= next) := by
  cases r with
  | error fault =>
    obtain ⟨q, hq, hdone⟩ := hx
    rw [bind_error hdone]
    exact hfault fault q hq
  | ok t =>
    obtain ⟨value, rest, lt⟩ := t
    obtain ⟨q, hq, rfl, hdone⟩ := hx
    rw [bind_ok hdone]
    exact hk value q lt hq

/-- `Tracks` composes along `bind`. -/
theorem Tracks.bind {x : Walk α} {r : Except Fault (Taken α bound)} {k : α → Walk β}
    {next : Taken α bound → Except Fault (Taken β bound')} (hx : Tracks c (x p) r)
    (hk : ∀ a q lt, q ≤ c.tokens.length → Tracks c (k a q) (next ⟨a, c.tokens.drop q, lt⟩)) :
    Tracks c ((x >>= k) p) (r >>= next) :=
  hx.bind_of (fun _ q hq => ⟨q, hq, rfl⟩) hk

/-- `Tracks`, then `Comes`: for the list of statements, which takes all tokens. -/
theorem Tracks.bind_comes {x : Walk α} {r : Except Fault (Taken α bound)} {k : α → Walk β}
    {next : Taken α bound → Except Fault β} (hx : Tracks c (x p) r)
    (hk : ∀ a q lt, q ≤ c.tokens.length → Comes c (k a q) (next ⟨a, c.tokens.drop q, lt⟩)) :
    Comes c ((x >>= k) p) (r >>= next) :=
  hx.bind_of (fun _ q hq => ⟨q, hq, rfl⟩) hk

/-- `Tracks` does not depend on the bound in `Taken`. -/
theorem Tracks.map {x : Walked α} {r : Except Fault (Taken α bound)} (hx : Tracks c x r)
    (hbound : ∀ t : Taken α bound, t.rest.length < bound') :
    Tracks c x (r >>= fun t => .ok (⟨t.value, t.rest, hbound t⟩ : Taken α bound')) := by
  cases r with
  | error fault => exact hx
  | ok t => exact hx

theorem Comes.map {x : Walk α} {r : Except Fault α} (hx : Comes c (x p) r) (f : α → β) :
    Comes c ((x >>= fun a => pure (f a)) p) (r >>= fun a => pure (f a)) := by
  obtain ⟨q, hq, hdone⟩ := hx
  cases r with
  | error fault => exact ⟨q, hq, bind_error hdone⟩
  | ok a => exact ⟨q, hq, bind_ok hdone⟩

/-- `settle` tracks a reader that takes no token. -/
theorem tracks_settle {r : Except Fault α} (hp : p ≤ c.tokens.length)
    (lt : (c.tokens.drop p).length < bound) :
    Tracks c (settle r p) (r >>= fun a => .ok (⟨a, c.tokens.drop p, lt⟩ : Taken α bound)) := by
  cases r with
  | error fault => exact ⟨p, hp, rfl⟩
  | ok a => exact ⟨p, hp, rfl, rfl⟩

/-- `Parser.peek` on the tokens from position `p` on is `tokenAt`. -/
theorem peek_drop : Parser.peek c.last (c.tokens.drop p) = tokenAt c p := by
  unfold Parser.peek tokenAt
  rw [List.headD_eq_head?_getD, List.head?_drop, List.getD_eq_getElem?_getD]

/-- `Parser.peekKind` on the tokens from position `p` on is the kind of `tokenAt`. -/
theorem peekKind_drop : Parser.peekKind c.last (c.tokens.drop p) = (tokenAt c p).kind := by
  rw [Parser.peekKind, peek_drop]

theorem tokenAt_of_getElem? {t : Token} (ht : c.tokens[p]? = some t) : tokenAt c p = t := by
  unfold tokenAt
  rw [List.getD_eq_getElem?_getD, ht]
  rfl

/-- `advance` steps past a token that is not the end, below the limit. -/
theorem advance_eq {t : Token} (ht : c.tokens[p]? = some t) (hkind : t.kind ≠ .endOfFile)
    (hlimit : p < c.limit) : advance c p = .done (.ok t) (p + 1) := by
  unfold advance
  rw [tokenAt_of_getElem? ht, if_neg hkind, ht]
  exact if_pos hlimit

/-- `advance` past the end of the list is `outOfTokens`. -/
theorem advance_of_length (hp : c.tokens.length ≤ p) (hkind : (tokenAt c p).kind ≠ .endOfFile) :
    advance c p = .done (.error .outOfTokens) p := by
  unfold advance
  rw [if_neg hkind, List.getElem?_eq_none hp]

/-- `Parser.take` hands on the first token. -/
theorem take_bind_cons {taken rest : List Token} {t : Token} (h : taken = t :: rest)
    (next : Taken Token taken.length → Except Fault β) :
    (Parser.take taken >>= next) = next ⟨t, rest, by rw [h]; exact Nat.lt_succ_self _⟩ := by
  subst h
  rfl

theorem take_bind_nil {taken : List Token} (h : taken = [])
    (next : Taken Token taken.length → Except Fault β) :
    (Parser.take taken >>= next) = .error .outOfTokens := by
  subst h
  rfl

/-- `expect` at position `p`, in terms of `tokenAt` and `advance`. -/
theorem expect_eq {kind : TokenKind} {wanted : String} :
    expect c kind wanted p =
      if (tokenAt c p).kind = kind then advance c p
      else .done (.error (.report (.missingToken wanted) (some (.known (tokenAt c p).location)))) p := by
  show (if (tokenAt c p).kind = kind then advance c
    else settle (.error (.report (.missingToken wanted) (some (.known (tokenAt c p).location))))) p = _
  split
  · rfl
  · rfl

section Steps

variable (hlimit : c.tokens.length ≤ c.limit)

include hlimit

/-- `advance` and `Parser.take` both take the next token, or both are `outOfTokens`. -/
theorem advance_of {γ : Type} {Shown : Walked β → Except Fault γ → Prop} {k : Token → Walk β}
    {next : Taken Token (c.tokens.drop p).length → Except Fault γ}
    (hp : p ≤ c.tokens.length) (hkind : (tokenAt c p).kind ≠ .endOfFile)
    (hfault : Shown (.done (.error .outOfTokens) p) (.error .outOfTokens))
    (hk : ∀ lt, p < c.tokens.length → Shown (k (tokenAt c p) (p + 1))
      (next ⟨tokenAt c p, c.tokens.drop (p + 1), lt⟩)) :
    Shown ((advance c >>= k) p) (Parser.take (c.tokens.drop p) >>= next) := by
  rcases Nat.lt_or_eq_of_le hp with hlt | hend
  · have hget : c.tokens[p]? = some c.tokens[p] := List.getElem?_eq_getElem hlt
    have hdrop : c.tokens.drop p = c.tokens[p] :: c.tokens.drop (p + 1) := List.drop_eq_getElem_cons hlt
    rw [tokenAt_of_getElem? hget] at hkind hk
    rw [bind_ok (advance_eq hget hkind (by omega)), take_bind_cons hdrop next]
    exact hk _ hlt
  · have hlength : c.tokens.length ≤ p := Nat.le_of_eq hend.symm
    rw [bind_error (advance_of_length hlength hkind),
      take_bind_nil (List.drop_eq_nil_of_le hlength) next]
    exact hfault

/-- `advance` tracks `Parser.take`, below the limit. -/
theorem tracks_advance {k : Token → Walk β}
    {next : Taken Token (c.tokens.drop p).length → Except Fault (Taken β bound)}
    (hp : p ≤ c.tokens.length) (hkind : (tokenAt c p).kind ≠ .endOfFile)
    (hk : ∀ lt, p < c.tokens.length → Tracks c (k (tokenAt c p) (p + 1))
      (next ⟨tokenAt c p, c.tokens.drop (p + 1), lt⟩)) :
    Tracks c ((advance c >>= k) p) (Parser.take (c.tokens.drop p) >>= next) :=
  advance_of hlimit hp hkind ⟨p, hp, rfl⟩ hk

theorem comes_advance {k : Token → Walk β}
    {next : Taken Token (c.tokens.drop p).length → Except Fault β}
    (hp : p ≤ c.tokens.length) (hkind : (tokenAt c p).kind ≠ .endOfFile)
    (hk : ∀ lt, p < c.tokens.length → Comes c (k (tokenAt c p) (p + 1))
      (next ⟨tokenAt c p, c.tokens.drop (p + 1), lt⟩)) :
    Comes c ((advance c >>= k) p) (Parser.take (c.tokens.drop p) >>= next) :=
  advance_of hlimit hp hkind ⟨p, hp, rfl⟩ hk

/-- `expect` tracks `Parser.expect`: the token is taken, is behind the end of the list, or is missing. -/
theorem tracks_expect {kind : TokenKind} {wanted : String} {k : Token → Walk β}
    {next : Taken Token (c.tokens.drop p).length → Except Fault (Taken β bound)}
    (hp : p ≤ c.tokens.length) (hkind : kind ≠ .endOfFile)
    (hk : ∀ lt, p < c.tokens.length → Tracks c (k (tokenAt c p) (p + 1))
      (next ⟨tokenAt c p, c.tokens.drop (p + 1), lt⟩)) :
    Tracks c ((expect c kind wanted >>= k) p)
      (Parser.expect c.last kind wanted (c.tokens.drop p) >>= next) := by
  unfold Parser.expect
  rw [peekKind_drop, peek_drop]
  by_cases hnext : (tokenAt c p).kind = kind
  · have hexpect : expect c kind wanted p = advance c p := by
      rw [expect_eq, if_pos hnext]
    rw [if_pos hnext, bind_congr hexpect]
    exact tracks_advance hlimit hp (hnext ▸ hkind) hk
  · have hexpect : expect c kind wanted p =
        .done (.error (.report (.missingToken wanted) (some (.known (tokenAt c p).location)))) p := by
      rw [expect_eq, if_neg hnext]
    rw [if_neg hnext, bind_error hexpect]
    exact ⟨p, hp, rfl⟩

end Steps

/-! ## Rounds -/

/-- `rise level`: how many rounds the reader of a level takes beyond four for each token. -/
def rise : Level → Nat
  | .primary => 1
  | .unary => 2
  | .chain .product => 3
  | .chain .sum => 4

/-- `rise` grows by one from the operands of a chain to the chain. -/
theorem rise_operand (level : Chain) : rise level.operand + 1 = rise (.chain level) := by
  cases level with
  | product => rfl
  | sum => rfl

theorem rise_le (level : Level) : rise level ≤ 4 := by
  match level with
  | .primary | .unary | .chain .product | .chain .sum => decide

/-- `Suffices c rounds`: with `rounds` rounds, the walks of expressions track the readers from every
    position `p` with at most `rounds` rounds to go, which is four for each token behind `p` and `rise` for
    the level. -/
structure Suffices (c : Course) (rounds : Nat) : Prop where
  read : ∀ level p, p ≤ c.tokens.length → 4 * (c.tokens.length - p) + rise level ≤ rounds →
    Tracks c (read c rounds level p) (Parser.read c.last level (c.tokens.drop p))
  chainLoop : ∀ level p left, p ≤ c.tokens.length → 4 * (c.tokens.length - p) + 1 ≤ rounds →
    Tracks c (chainLoop c rounds level left p) (Parser.chainTail level c.last left (c.tokens.drop p))

/-- `Suffices` behind a token, where there are rounds enough for every level. -/
theorem Suffices.ahead {rounds : Nat} (h : Suffices c rounds) (level : Level) (hp : p ≤ c.tokens.length)
    (hrounds : 4 * (c.tokens.length - p) + 4 ≤ rounds) :
    Tracks c (Walk.read c rounds level p) (Parser.read c.last level (c.tokens.drop p)) :=
  h.read level p hp (by have := rise_le level; omega)

variable {rounds : Nat} {level : Chain}

/-- `read` at the level of a chain tracks `Parser.chain`. -/
theorem tracks_chain (ih : Suffices c rounds) (hp : p ≤ c.tokens.length)
    (hrounds : 4 * (c.tokens.length - p) + rise (.chain level) ≤ rounds + 1) :
    Tracks c (read c (rounds + 1) (.chain level) p) (Parser.chain level c.last (c.tokens.drop p)) := by
  rw [← rise_operand] at hrounds
  rw [Parser.chain, Parser.operand_eq_read, read]
  refine (ih.read level.operand p hp (by omega)).bind fun left q lt hq => ?_
  rw [List.length_drop, List.length_drop] at lt
  exact (ih.chainLoop level q left hq (by omega)).map _

variable (hlimit : c.tokens.length ≤ c.limit)

include hlimit

/-- `chainLoop` tracks `Parser.chainTail`: each turn takes an operator, which pays for four rounds. -/
theorem tracks_chainLoop (ih : Suffices c rounds) {left : Expr} (hp : p ≤ c.tokens.length)
    (hrounds : 4 * (c.tokens.length - p) + 1 ≤ rounds + 1) :
    Tracks c (chainLoop c (rounds + 1) level left p)
      (Parser.chainTail level c.last left (c.tokens.drop p)) := by
  rw [Parser.chainTail, peekKind_drop, chainLoop, peek_bind]
  by_cases hnext : level.joins (tokenAt c p).kind = true
  · rw [if_pos hnext, if_pos hnext]
    refine tracks_advance hlimit hp (Chain.ne_of_joins hnext ⟨rfl, rfl⟩) fun lt hlt => ?_
    dsimp only
    rw [Parser.operand_eq_read]
    refine (ih.ahead level.operand hlt (by omega)).bind fun right q lt' hq => ?_
    rw [List.length_drop, List.length_drop] at lt'
    exact (ih.chainLoop level q _ hq (by omega)).map _
  · rw [if_neg hnext, if_neg hnext]
    exact ⟨p, hp, rfl, rfl⟩

/-- `read` at the level of unary expressions tracks `Parser.unary`. -/
theorem tracks_unary (ih : Suffices c rounds) (hp : p ≤ c.tokens.length)
    (hrounds : 4 * (c.tokens.length - p) + 2 ≤ rounds + 1) :
    Tracks c (read c (rounds + 1) .unary p) (Parser.unary c.last (c.tokens.drop p)) := by
  rw [Parser.unary, peekKind_drop, read, peek_bind]
  by_cases hnext : (tokenAt c p).kind = .minus
  · rw [if_pos hnext, if_pos hnext]
    refine tracks_advance hlimit hp (by rw [hnext]; decide) fun lt hlt => ?_
    rw [peek_bind]
    dsimp only
    rw [peekKind_drop]
    by_cases hfollowing : (tokenAt c (p + 1)).kind = .number
    · rw [if_pos hfollowing, if_pos hfollowing]
      refine tracks_advance hlimit hlt (by rw [hfollowing]; decide) fun lt' hlt' => ?_
      exact tracks_settle hlt' _
    · rw [if_neg hfollowing, if_neg hfollowing]
      refine (ih.ahead .unary hlt (by omega)).bind fun operand q lt' hq => ?_
      exact ⟨q, hq, rfl, rfl⟩
  · rw [if_neg hnext, if_neg hnext]
    have hprimary : 4 * (c.tokens.length - p) + rise .primary ≤ rounds := Nat.le_of_succ_le_succ hrounds
    exact ih.read .primary p hp hprimary

/-- `read` at the level of primary expressions tracks `Parser.primary`. -/
theorem tracks_primary (ih : Suffices c rounds) (hp : p ≤ c.tokens.length)
    (hrounds : 4 * (c.tokens.length - p) + 1 ≤ rounds + 1) :
    Tracks c (read c (rounds + 1) .primary p) (Parser.primary c.last (c.tokens.drop p)) := by
  rw [Parser.primary, peekKind_drop, peek_drop, read, peek_bind]
  cases hnext : (tokenAt c p).kind with
  | number =>
    refine tracks_advance hlimit hp (by rw [hnext]; decide) fun lt hlt => ?_
    exact tracks_settle hlt _
  | identifier =>
    refine tracks_advance hlimit hp (by rw [hnext]; decide) fun lt hlt => ?_
    rw [peek_bind]
    dsimp only
    rw [peekKind_drop]
    by_cases hfollowing : (tokenAt c (p + 1)).kind = .leftParen
    · rw [if_pos hfollowing, if_pos hfollowing]
      refine tracks_advance hlimit hlt (by rw [hfollowing]; decide) fun lt' hlt' => ?_
      refine (ih.ahead .sum hlt' (by omega)).bind fun argument q lt'' hq => ?_
      refine tracks_expect hlimit hq (by decide) fun _ hlt'' => ?_
      exact ⟨q + 1, hlt'', rfl, rfl⟩
    · rw [if_neg hfollowing, if_neg hfollowing]
      exact ⟨p + 1, hlt, rfl, rfl⟩
  | leftParen =>
    refine tracks_advance hlimit hp (by rw [hnext]; decide) fun lt hlt => ?_
    refine (ih.ahead .sum hlt (by omega)).bind fun inner q lt' hq => ?_
    refine tracks_expect hlimit hq (by decide) fun _ hlt' => ?_
    exact ⟨q + 1, hlt', rfl, rfl⟩
  | _ => exact ⟨p, hp, rfl⟩

/-- `Suffices` holds for every number of rounds, by induction on it. -/
theorem suffices_rounds (rounds : Nat) :
    Suffices c rounds := by
  induction rounds with
  | zero =>
    refine ⟨fun level p hp hrounds => ?_, by omega⟩
    have hlevel : 1 ≤ rise level := by
      match level with
      | .primary | .unary | .chain .product | .chain .sum => decide
    omega
  | succ rounds ih =>
    refine ⟨fun level p hp hrounds => ?_, fun _ _ _ hp hrounds => tracks_chainLoop hlimit ih hp hrounds⟩
    cases level with
    | primary => exact tracks_primary hlimit ih hp hrounds
    | unary => exact tracks_unary hlimit ih hp hrounds
    | chain level => exact tracks_chain ih hp hrounds

/-! ## Statements -/

/-- `statement` tracks `Parser.statement`. -/
theorem tracks_statement (hp : p ≤ c.tokens.length) (hrounds : 4 * (c.tokens.length - p) ≤ rounds) :
    Tracks c (statement c rounds p) (Parser.statement c.last (c.tokens.drop p)) := by
  have hsuffices := @suffices_rounds _ hlimit rounds
  unfold Parser.statement statement
  rw [peek_bind]
  dsimp only
  rw [peek_drop]
  cases hnext : (tokenAt c p).kind with
  | exitWord =>
    refine tracks_advance hlimit hp (by rw [hnext]; decide) fun lt hlt => ?_
    refine (hsuffices.ahead .sum hlt (by omega)).bind fun value q lt' hq => ?_
    exact ⟨q, hq, rfl, rfl⟩
  | endforWord =>
    refine tracks_advance hlimit hp (by rw [hnext]; decide) fun lt hlt => ?_
    exact ⟨p + 1, hlt, rfl, rfl⟩
  | forWord =>
    refine tracks_advance hlimit hp (by rw [hnext]; decide) fun lt hlt => ?_
    refine tracks_expect hlimit hlt (by decide) fun _ hlt' => ?_
    refine tracks_expect hlimit hlt' (by decide) fun _ hlt'' => ?_
    refine (hsuffices.ahead .sum hlt'' (by omega)).bind fun range q lt' hq => ?_
    exact ⟨q, hq, rfl, rfl⟩
  | identifier =>
    have hahead : Parser.peekKind c.last ((c.tokens.drop p).drop 1) = (tokenAt c (p + 1)).kind := by
      rw [List.drop_drop, peekKind_drop]
    dsimp only
    rw [hahead, peek_ahead_bind]
    by_cases hfollowing : (tokenAt c (p + 1)).kind = .assign
    · rw [if_pos hfollowing, if_pos hfollowing]
      refine tracks_advance hlimit hp (by rw [hnext]; decide) fun lt hlt => ?_
      refine tracks_advance hlimit hlt (by rw [hfollowing]; decide) fun lt' hlt' => ?_
      refine (hsuffices.ahead .sum hlt' (by omega)).bind fun value q lt'' hq => ?_
      exact ⟨q, hq, rfl, rfl⟩
    · rw [if_neg hfollowing, if_neg hfollowing]
      exact ⟨p, hp, rfl⟩
  | _ => exact ⟨p, hp, rfl⟩

/-- `statements` comes to what `Parser.statements` comes to: each turn takes a token, and so four rounds. -/
theorem comes_statements (hp : p ≤ c.tokens.length) (hrounds : 4 * (c.tokens.length - p) + 1 ≤ rounds) :
    Comes c (statements c rounds p) (Parser.statements c.last (c.tokens.drop p)) := by
  induction rounds generalizing p with
  | zero => omega
  | succ rounds ih =>
    rw [Parser.statements, peekKind_drop, statements, peek_bind]
    cases hnext : (tokenAt c p).kind with
    | endOfFile => exact ⟨p, hp, rfl⟩
    | newline =>
      refine comes_advance hlimit hp (by rw [hnext]; decide) fun lt hlt => ?_
      exact ih hlt (by omega)
    | _ =>
      refine (tracks_statement hlimit hp (by omega)).bind_comes fun first q lt hq => ?_
      rw [List.length_drop, List.length_drop] at lt
      rw [peek_bind]
      dsimp only
      rw [peekKind_drop, peek_drop]
      cases hfollowing : (tokenAt c q).kind with
      | endOfFile => exact ⟨q, hq, rfl⟩
      | newline =>
        refine comes_advance hlimit hq (by rw [hfollowing]; decide) fun lt' hlt => ?_
        exact (ih hlt (by omega)).map (first :: ·)
      | _ => exact ⟨q, hq, rfl⟩

end Following

end Walk

/-- `walk rounds limit tokens`: a walk along `tokens` with `rounds` rounds that takes no step beyond
    `limit`. -/
def walk (rounds limit : Nat) (tokens : List Token) : Walked (List Stmt) :=
  match tokens.getLast? with
  | none => .done (.error .outOfTokens) 0
  | some last => Walk.statements ⟨tokens, last, limit⟩ rounds 0

/-- `walk` has the outcome of `parseTokens` with `4 n + 1` rounds for `n` tokens, and its position is at
    most `n`. -/
theorem walk_eq {tokens : List Token} {rounds limit : Nat} (hlimit : tokens.length ≤ limit)
    (h : 4 * tokens.length + 1 ≤ rounds) : ∃ position, position ≤ tokens.length ∧
      walk rounds limit tokens = .done (parseTokens tokens) position := by
  unfold walk parseTokens
  cases tokens.getLast? with
  | none => exact ⟨0, Nat.zero_le _, rfl⟩
  | some last => exact Walk.comes_statements (c := ⟨tokens, last, limit⟩) hlimit (Nat.zero_le _) h

end ZebLang
