/-
  The parser on lists of tokens that no lexer makes.

  The end of the file may come anywhere in the list, several times or not at all.  Along the walk of the
  parser (`walk`) the first end is a wall:

  1. Two lists that agree up to their first end are walked along alike, and no walk goes beyond it
     (`alike_statements`).  For nothing is looked at behind it: a token is looked at where the walk stands, or
     one ahead of a token that is not the end; and no step is taken from an end.
  2. So no walk runs out of tokens, and what remains are faults of grammar and texts that cannot be written
     (`Refusable`).
  3. Without an end no walk comes to a program, since only an end can finish it (`fruitless_statements`).
-/

import ZebLang.Proofs.Datum.Writing
import ZebLang.Proofs.Program.Reading
import ZebLang.Proofs.Program.Walk

namespace ZebLang

/-! ## Faults -/

/-- `NumbersFit tokens`: every number token carries an integer of at most `Text.digitLimit` digits. -/
def NumbersFit (tokens : List Token) : Prop :=
  ∀ t ∈ tokens, t.kind = .number → ∃ n : Int, t.value = .int n ∧ Text.digitCount n ≤ Text.digitLimit

/-- `Refusable tokens fault`: a report of grammar at one of `tokens`, or `unwritable` because of the value
    of a token that is neither a number nor the end. -/
inductive Refusable (tokens : List Token) : Fault → Prop where
  | grammar {cause : Cause} {t : Token} (ht : t ∈ tokens) (hcause : cause.category = some .grammar) :
      Refusable tokens (.report cause (some (.known t.location)))
  | unwritable {t : Token} (ht : t ∈ tokens) (hend : t.kind ≠ .endOfFile) (hkind : t.kind ≠ .number)
      (hvalue : t.value.plain = .error .unwritable) : Refusable tokens .unwritable

theorem plain_of_fits {n : Int} (h : Text.digitCount n ≤ Text.digitLimit) :
    (Datum.int n).plain = .ok (Text.decimal n) := by
  show writeInt n = _
  unfold writeInt Text.decimal?
  rw [if_pos h]

/-- `plain` fails with `unwritable` only. -/
theorem Datum.unwritable_of_plain {d : Datum} {fault : Fault} (h : d.plain = .error fault) :
    fault = .unwritable := by
  cases d with
  | text => cases h
  | _ => exact unwritable_of_structural _ h

/-- `Parser.literal` refuses an integer of few digits with a `Refusable` fault: it can be quoted. -/
theorem refusable_literal {tokens : List Token} {v : Int} {place : Token} {fault : Fault}
    (hplace : place ∈ tokens) (hfits : Text.digitCount v ≤ Text.digitLimit)
    (h : Parser.literal (.int v) place = .error fault) :
    Refusable tokens fault := by
  rcases Parser.literal_cases v place with ⟨-, -, hok⟩ | ⟨cause, hcause, herror⟩ | ⟨hhuge, -⟩
  · cases hok.symm.trans h
  · cases herror.symm.trans h
    exact .grammar hplace hcause
  · omega

section Tokens

variable {tokens : List Token} (hnumbers : NumbersFit tokens) {t : Token} (ht : t ∈ tokens)

include hnumbers ht

/-- `Parser.unexpected` is `Refusable` at each of the tokens. -/
theorem refusable_unexpected (expected : String) : Refusable tokens (Parser.unexpected t expected) := by
  unfold Parser.unexpected
  split
  next => exact .grammar ht rfl
  next fault hdescribe =>
    unfold Parser.describe at hdescribe
    split at hdescribe
    next => cases hdescribe
    next hend =>
      cases hplain : t.value.plain with
      | ok text =>
        rw [hplain] at hdescribe
        cases hdescribe
      | error found =>
        rw [hplain] at hdescribe
        cases hdescribe
        obtain rfl := Datum.unwritable_of_plain hplain
        refine .unwritable ht hend (fun hkind => ?_) hplain
        -- a number could have been written
        obtain ⟨n, hn, hfits⟩ := hnumbers t ht hkind
        rw [hn, plain_of_fits hfits] at hplain
        cases hplain

/-- `Parser.literal` on a number token fails with a `Refusable` fault. -/
theorem refusable_number (hkind : t.kind = .number) {fault : Fault}
    (h : Parser.literal t.value t = .error fault) : Refusable tokens fault := by
  obtain ⟨n, hn, hfits⟩ := hnumbers t ht hkind
  rw [hn] at h
  exact refusable_literal ht hfits h

/-- `Parser.negativeLiteral` on a minus and a number token fails with a `Refusable` fault. -/
theorem refusable_negative (hkind : t.kind = .number) {minus : Token} (hminus : minus ∈ tokens)
    {fault : Fault} (h : Parser.negativeLiteral minus t = .error fault) : Refusable tokens fault := by
  obtain ⟨n, hn, hfits⟩ := hnumbers t ht hkind
  have hnegative : Parser.negativeLiteral minus t = Parser.literal (.int (-n)) minus := by
    unfold Parser.negativeLiteral
    rw [hn]
    rfl
  have hsame : Text.digitCount (-n) = Text.digitCount n := by
    unfold Text.digitCount
    rw [Int.natAbs_neg]
  rw [hnegative] at h
  exact refusable_literal hminus (hsame ▸ hfits) h

end Tokens

namespace Walk

/-! ## Up to the first end -/

/-- `Agree limit allowed w w'`: the two walks have one outcome at one position, at most `limit`; if it is a
    fault, it is `allowed`.  Or both are unfinished. -/
def Agree {α : Type} (limit : Nat) (allowed : Fault → Prop) (w w' : Walked α) : Prop :=
  w = w' ∧ ∀ outcome q, w = .done outcome q → q ≤ limit ∧ ∀ fault, outcome = .error fault → allowed fault

section Steps

variable {α β : Type} {limit : Nat} {allowed : Fault → Prop} {p : Nat}

theorem agree_cut : Agree limit allowed (.unfinished : Walked α) .unfinished :=
  ⟨rfl, fun _ _ h => by cases h⟩

/-- `settle` agrees with itself, if its fault is allowed. -/
theorem agree_settle {r : Except Fault α} (hp : p ≤ limit) (hr : ∀ fault, r = .error fault → allowed fault) :
    Agree limit allowed (settle r p) (settle r p) := by
  refine ⟨rfl, fun outcome q h => ?_⟩
  cases h
  exact ⟨hp, hr⟩

theorem agree_fault {fault : Fault} (hp : p ≤ limit) (hfault : allowed fault) :
    Agree limit allowed (.done (.error fault) p : Walked α) (.done (.error fault) p) := by
  refine ⟨rfl, fun outcome q h => ?_⟩
  cases h
  refine ⟨hp, fun found h => ?_⟩
  cases h
  exact hfault

theorem agree_pure {a : α} (hp : p ≤ limit) :
    Agree limit allowed ((pure a : Walk α) p) ((pure a : Walk α) p) :=
  agree_settle hp fun _ h => by cases h

theorem bind_unfinished {x : Walk α} {k : α → Walk β} (h : x p = .unfinished) :
    (x >>= k) p = .unfinished := by
  show andThen x k p = _
  rw [andThen, h]

/-- `Agree` composes: walks that agree, followed by walks that agree from every position up to `limit`. -/
theorem Agree.bind {x y : Walk α} {k l : α → Walk β} (hx : Agree limit allowed (x p) (y p))
    (hk : ∀ a q, q ≤ limit → Agree limit allowed (k a q) (l a q)) :
    Agree limit allowed ((x >>= k) p) ((y >>= l) p) := by
  obtain ⟨hsame, hdone⟩ := hx
  cases hw : x p with
  | unfinished =>
    rw [bind_unfinished hw, bind_unfinished (hsame ▸ hw)]
    exact agree_cut
  | done outcome q =>
    obtain ⟨hq, hfault⟩ := hdone outcome q hw
    cases outcome with
    | ok a =>
      rw [bind_ok hw, bind_ok (hsame ▸ hw)]
      exact hk a q hq
    | error fault =>
      rw [bind_error hw, bind_error (hsame ▸ hw)]
      exact agree_fault hq (hfault fault rfl)

end Steps

section FirstEnd

variable {body : List Token} {final : Token} {c c' : Course} {p : Nat}

/-- `Reaches body final c`: the tokens of the course `c` start with `body ++ [final]`, and its limit allows
    for them. -/
structure Reaches (body : List Token) (final : Token) (c : Course) : Prop where
  tokens : ∃ rest, c.tokens = body ++ final :: rest
  limit : body.length ≤ c.limit

/-- `found body final p`: the token at position `p` of `body ++ [final]`. -/
def found (body : List Token) (final : Token) (p : Nat) : Token := (body ++ [final]).getD p final

theorem getElem?_of_reaches (hc : Reaches body final c) (hp : p ≤ body.length) :
    c.tokens[p]? = some (found body final p) := by
  obtain ⟨rest, hrest⟩ := hc.tokens
  have hlt : p < (body ++ [final]).length := by
    rw [List.length_append, List.length_singleton]
    omega
  unfold found
  rw [hrest, List.append_cons, List.getElem?_append_left hlt, List.getD_eq_getElem?_getD,
    List.getElem?_eq_getElem hlt]
  rfl

/-- `tokenAt` on a course that `Reaches` is `found`. -/
theorem tokenAt_of_reaches (hc : Reaches body final c) (hp : p ≤ body.length) :
    tokenAt c p = found body final p :=
  tokenAt_of_getElem? (getElem?_of_reaches hc hp)

theorem found_mem (hp : p ≤ body.length) : found body final p ∈ body ++ [final] :=
  List.mem_of_getElem?
    (getElem?_of_reaches (c := ⟨body ++ [final], final, body.length⟩) ⟨⟨[], rfl⟩, Nat.le_refl _⟩ hp)

/-- A token of `body ++ [final]` that is no end lies in `body`, because `final` is one. -/
theorem lt_of_kind (hfinal : final.kind = .endOfFile) (hp : p ≤ body.length)
    (hkind : (found body final p).kind ≠ .endOfFile) : p < body.length := by
  rcases Nat.lt_or_eq_of_le hp with hlt | rfl
  · exact hlt
  · have hat : found body final body.length = final := by
      unfold found
      rw [List.getD_eq_getElem?_getD, List.getElem?_concat_length]
      rfl
    rw [hat] at hkind
    exact absurd hfinal hkind

variable {α : Type} {allowed : Fault → Prop} (hfinal : final.kind = .endOfFile)
  (hc : Reaches body final c) (hc' : Reaches body final c')

include hfinal hc hc'

/-- `advance` on two courses that both `Reaches`: from a token that is no end, both step past it. -/
theorem agree_advance {k l : Token → Walk α} (hp : p ≤ body.length)
    (hkind : (found body final p).kind ≠ .endOfFile)
    (hk : p + 1 ≤ body.length → Agree body.length allowed
      (k (found body final p) (p + 1)) (l (found body final p) (p + 1))) :
    Agree body.length allowed ((advance c >>= k) p) ((advance c' >>= l) p) := by
  have hlt : p < body.length := lt_of_kind hfinal hp hkind
  have hstep : ∀ {c : Course}, Reaches body final c →
      advance c p = .done (.ok (found body final p)) (p + 1) := fun hc =>
    advance_eq (getElem?_of_reaches hc hp) hkind (Nat.lt_of_lt_of_le hlt hc.limit)
  rw [bind_ok (hstep hc), bind_ok (hstep hc')]
  exact hk hlt

/-- `expect` on two courses that both `Reaches`: both step, or both report the token at one place. -/
theorem agree_expect {k l : Token → Walk α} {kind : TokenKind} {wanted : String}
    (hp : p ≤ body.length) (hkind : kind ≠ .endOfFile)
    (hmissing : ∀ t ∈ body ++ [final], allowed (.report (.missingToken wanted) (some (.known t.location))))
    (hk : ∀ t, p + 1 ≤ body.length → Agree body.length allowed (k t (p + 1)) (l t (p + 1))) :
    Agree body.length allowed ((expect c kind wanted >>= k) p) ((expect c' kind wanted >>= l) p) := by
  by_cases hnext : (found body final p).kind = kind
  · have hexpect : ∀ {c : Course}, Reaches body final c → expect c kind wanted p = advance c p := by
      intro c hc
      rw [expect_eq, tokenAt_of_reaches hc hp, if_pos hnext]
    rw [bind_congr (hexpect hc), bind_congr (hexpect hc')]
    exact agree_advance hfinal hc hc' hp (hnext ▸ hkind) (hk _)
  · have hexpect : ∀ {c : Course}, Reaches body final c → expect c kind wanted p =
        .done (.error (.report (.missingToken wanted) (some (.known (found body final p).location)))) p := by
      intro c hc
      rw [expect_eq, tokenAt_of_reaches hc hp, if_neg hnext]
    rw [bind_error (hexpect hc), bind_error (hexpect hc')]
    exact agree_fault hp (hmissing _ (found_mem hp))

end FirstEnd

/-! ## Readers -/

section Readers

variable {α : Type} {body : List Token} {final : Token} {c c' : Course} {rounds : Nat}

/-- `Alike body final x y`: the walks `x` and `y` `Agree` from every position up to the first end, on faults
    that are `Refusable`. -/
def Alike (body : List Token) (final : Token) (x y : Walk α) : Prop :=
  ∀ p, p ≤ body.length → Agree body.length (Refusable (body ++ [final])) (x p) (y p)

/-- `AllAlike body final c c' rounds`: the walks of expressions along `c` and along `c'` are `Alike`, with
    `rounds` rounds. -/
structure AllAlike (body : List Token) (final : Token) (c c' : Course) (rounds : Nat) : Prop where
  read : ∀ level, Alike body final (read c rounds level) (read c' rounds level)
  chainLoop : ∀ level left,
    Alike body final (chainLoop c rounds level left) (chainLoop c' rounds level left)

/-- `read` at the level of a chain: its first operand, then its loop. -/
theorem alike_chain (ih : AllAlike body final c c' rounds) (level : Chain) :
    Alike body final (read c (rounds + 1) (.chain level)) (read c' (rounds + 1) (.chain level)) := by
  intro p hp
  rw [read, read]
  exact (ih.read level.operand p hp).bind fun left q hq => ih.chainLoop level left q hq

variable (hfinal : final.kind = .endOfFile) (hc : Reaches body final c) (hc' : Reaches body final c')

include hfinal hc hc'

/-- `chainLoop` looks at the next token, which is the same on both courses. -/
theorem alike_chainLoop (ih : AllAlike body final c c' rounds) (level : Chain) (left : Expr) :
    Alike body final (chainLoop c (rounds + 1) level left) (chainLoop c' (rounds + 1) level left) := by
  intro p hp
  rw [chainLoop, chainLoop, peek_bind, peek_bind, tokenAt_of_reaches hc hp, tokenAt_of_reaches hc' hp]
  by_cases hnext : level.joins (found body final p).kind = true
  · rw [if_pos hnext, if_pos hnext]
    refine agree_advance hfinal hc hc' hp (Chain.ne_of_joins hnext ⟨rfl, rfl⟩) fun hlt => ?_
    exact (ih.read level.operand (p + 1) hlt).bind fun right q hq => ih.chainLoop level _ q hq
  · rw [if_neg hnext, if_neg hnext]
    exact agree_pure hp

variable (hnumbers : NumbersFit (body ++ [final]))

include hnumbers

/-- `read` at the level of unary expressions looks two tokens ahead at most, and neither lies behind the
    first end. -/
theorem alike_unary (ih : AllAlike body final c c' rounds) :
    Alike body final (read c (rounds + 1) .unary) (read c' (rounds + 1) .unary) := by
  intro p hp
  rw [read, read, peek_bind, peek_bind, tokenAt_of_reaches hc hp, tokenAt_of_reaches hc' hp]
  by_cases hnext : (found body final p).kind = .minus
  · rw [if_pos hnext, if_pos hnext]
    refine agree_advance hfinal hc hc' hp (by rw [hnext]; decide) fun hlt => ?_
    rw [peek_bind, peek_bind, tokenAt_of_reaches hc hlt, tokenAt_of_reaches hc' hlt]
    by_cases hfollowing : (found body final (p + 1)).kind = .number
    · rw [if_pos hfollowing, if_pos hfollowing]
      refine agree_advance hfinal hc hc' hlt (by rw [hfollowing]; decide) fun hlt' => ?_
      exact agree_settle hlt' fun fault => refusable_negative hnumbers (found_mem hlt) hfollowing (found_mem hp)
    · rw [if_neg hfollowing, if_neg hfollowing]
      exact (ih.read .unary (p + 1) hlt).bind fun operand q hq => agree_pure hq
  · rw [if_neg hnext, if_neg hnext]
    exact ih.read .primary p hp

theorem alike_primary (ih : AllAlike body final c c' rounds) :
    Alike body final (read c (rounds + 1) .primary) (read c' (rounds + 1) .primary) := by
  intro p hp
  rw [read, read, peek_bind, peek_bind, tokenAt_of_reaches hc hp, tokenAt_of_reaches hc' hp]
  cases hnext : (found body final p).kind with
  | number =>
    refine agree_advance hfinal hc hc' hp (by rw [hnext]; decide) fun hlt => ?_
    exact agree_settle hlt fun fault => refusable_number hnumbers (found_mem hp) hnext
  | identifier =>
    refine agree_advance hfinal hc hc' hp (by rw [hnext]; decide) fun hlt => ?_
    rw [peek_bind, peek_bind, tokenAt_of_reaches hc hlt, tokenAt_of_reaches hc' hlt]
    by_cases hfollowing : (found body final (p + 1)).kind = .leftParen
    · rw [if_pos hfollowing, if_pos hfollowing]
      refine agree_advance hfinal hc hc' hlt (by rw [hfollowing]; decide) fun hlt' => ?_
      refine (ih.read .sum (p + 1 + 1) hlt').bind fun argument q hq => ?_
      exact agree_expect hfinal hc hc' hq (by decide) (fun _ ht => .grammar ht rfl) fun _ hq' => agree_pure hq'
    · rw [if_neg hfollowing, if_neg hfollowing]
      exact agree_pure hlt
  | leftParen =>
    refine agree_advance hfinal hc hc' hp (by rw [hnext]; decide) fun hlt => ?_
    refine (ih.read .sum (p + 1) hlt).bind fun inner q hq => ?_
    exact agree_expect hfinal hc hc' hq (by decide) (fun _ ht => .grammar ht rfl) fun _ hq' => agree_pure hq'
  | _ => exact agree_fault hp (refusable_unexpected hnumbers (found_mem hp) _)

/-- `AllAlike` holds for every number of rounds, by induction on it. -/
theorem allAlike (rounds : Nat) : AllAlike body final c c' rounds := by
  induction rounds with
  | zero => exact ⟨fun _ _ _ => agree_cut, fun _ _ _ _ => agree_cut⟩
  | succ rounds ih =>
    refine ⟨fun level => ?_, alike_chainLoop hfinal hc hc' ih⟩
    cases level with
    | primary => exact alike_primary hfinal hc hc' hnumbers ih
    | unary => exact alike_unary hfinal hc hc' hnumbers ih
    | chain level => exact alike_chain ih level

/-- `statement` on two courses that both `Reaches`. -/
theorem alike_statement (rounds : Nat) :
    Alike body final (statement c rounds) (statement c' rounds) := by
  have hsum := (allAlike hfinal hc hc' hnumbers rounds).read .sum
  intro p hp
  have hunexpected : ∀ expected, Refusable (body ++ [final]) (Parser.unexpected (found body final p) expected) :=
    refusable_unexpected hnumbers (found_mem hp)
  rw [statement, statement, peek_bind, peek_bind, tokenAt_of_reaches hc hp, tokenAt_of_reaches hc' hp]
  cases hnext : (found body final p).kind with
  | exitWord =>
    refine agree_advance hfinal hc hc' hp (by rw [hnext]; decide) fun hlt => ?_
    exact (hsum (p + 1) hlt).bind fun value q hq => agree_pure hq
  | endforWord =>
    exact agree_advance hfinal hc hc' hp (by rw [hnext]; decide) fun hlt => agree_pure hlt
  | forWord =>
    refine agree_advance hfinal hc hc' hp (by rw [hnext]; decide) fun hlt => ?_
    refine agree_expect hfinal hc hc' hlt (by decide) (fun _ ht => .grammar ht rfl) fun name hlt' => ?_
    refine agree_expect hfinal hc hc' hlt' (by decide) (fun _ ht => .grammar ht rfl) fun joint hlt'' => ?_
    exact (hsum (p + 1 + 1 + 1) hlt'').bind fun range q hq => agree_pure hq
  | identifier =>
    -- one token ahead of a name there may be the end, but nothing behind it
    have hlt : p + 1 ≤ body.length := lt_of_kind hfinal hp (by rw [hnext]; decide)
    dsimp only
    rw [peek_ahead_bind, peek_ahead_bind, tokenAt_of_reaches hc hlt, tokenAt_of_reaches hc' hlt]
    by_cases hfollowing : (found body final (p + 1)).kind = .assign
    · rw [if_pos hfollowing, if_pos hfollowing]
      refine agree_advance hfinal hc hc' hp (by rw [hnext]; decide) fun hlt => ?_
      refine agree_advance hfinal hc hc' hlt (by rw [hfollowing]; decide) fun hlt' => ?_
      exact (hsum (p + 1 + 1) hlt').bind fun value q hq => agree_pure hq
    · rw [if_neg hfollowing, if_neg hfollowing]
      exact agree_fault hp (hunexpected _)
  | _ => exact agree_fault hp (hunexpected _)

/-- `statements` on two courses that both `Reaches`, by induction on the rounds. -/
theorem alike_statements (rounds : Nat) :
    Alike body final (statements c rounds) (statements c' rounds) := by
  induction rounds with
  | zero => exact fun _ _ => agree_cut
  | succ rounds ih =>
    intro p hp
    rw [statements, statements, peek_bind, peek_bind, tokenAt_of_reaches hc hp, tokenAt_of_reaches hc' hp]
    cases hnext : (found body final p).kind with
    | endOfFile => exact agree_pure hp
    | newline => exact agree_advance hfinal hc hc' hp (by rw [hnext]; decide) fun hlt => ih (p + 1) hlt
    | _ =>
      refine (alike_statement hfinal hc hc' hnumbers rounds p hp).bind fun first q hq => ?_
      rw [peek_bind, peek_bind, tokenAt_of_reaches hc hq, tokenAt_of_reaches hc' hq]
      cases hfollowing : (found body final q).kind with
      | endOfFile => exact agree_pure hq
      | newline =>
        refine agree_advance hfinal hc hc' hq (by rw [hfollowing]; decide) fun hlt => ?_
        exact (ih (q + 1) hlt).bind fun others q' hq' => agree_pure hq'
      | _ => exact agree_fault hq (refusable_unexpected hnumbers (found_mem hq) _)

end Readers

/-! ## Without an end -/

section Fruitless

variable {α β : Type} {x : Walk α} {k : α → Walk β} {p : Nat}

/-- `Fruitless w`: the walk has no value, be it unfinished or at a fault. -/
def Fruitless (w : Walked α) : Prop := ∀ a q, w ≠ .done (.ok a) q

theorem fruitless_cut : Fruitless (.unfinished : Walked α) := by
  intro a q h
  cases h

theorem fruitless_fault {fault : Fault} : Fruitless (.done (.error fault) p : Walked α) := by
  intro a q h
  cases h

/-- A walk is `Fruitless` if what follows its first part always is. -/
theorem fruitless_bind (hk : ∀ a q, Fruitless (k a q)) : Fruitless ((x >>= k) p) := by
  intro b q h
  cases hw : x p with
  | unfinished => cases (bind_unfinished hw).symm.trans h
  | done outcome r =>
    cases outcome with
    | ok a => exact hk a r b q ((bind_ok hw).symm.trans h)
    | error fault => cases (bind_error hw).symm.trans h

/-- A walk is `Fruitless` if its first part is. -/
theorem Fruitless.bind (hx : Fruitless (x p)) : Fruitless ((x >>= k) p) := by
  intro b q h
  cases hw : x p with
  | unfinished => cases (bind_unfinished hw).symm.trans h
  | done outcome r =>
    cases outcome with
    | ok a => exact hx a r hw
    | error fault => cases (bind_error hw).symm.trans h

theorem tokenAt_mem {c : Course} (hlast : c.last ∈ c.tokens) (p : Nat) : tokenAt c p ∈ c.tokens := by
  cases hget : c.tokens[p]? with
  | some t =>
    rw [tokenAt_of_getElem? hget]
    exact List.mem_of_getElem? hget
  | none =>
    unfold tokenAt
    rw [List.getD_eq_getElem?_getD, hget]
    exact hlast

/-- `statements` is `Fruitless` on a course without an end of the file: only an end can finish a program. -/
theorem fruitless_statements {c : Course} (hends : ∀ p, (tokenAt c p).kind ≠ .endOfFile) (rounds : Nat) :
    Fruitless (statements c rounds p) := by
  induction rounds generalizing p with
  | zero => exact fruitless_cut
  | succ rounds ih =>
    rw [statements, peek_bind]
    cases hnext : (tokenAt c p).kind with
    | endOfFile => exact absurd hnext (hends p)
    | newline => exact fruitless_bind fun _ _ => ih
    | _ =>
      refine fruitless_bind fun first q => ?_
      rw [peek_bind]
      cases hfollowing : (tokenAt c q).kind with
      | endOfFile => exact absurd hfollowing (hends q)
      | newline => exact fruitless_bind fun _ _ => ih.bind
      | _ => exact fruitless_fault

end Fruitless

end Walk

/-! ## Outcomes -/

/-- `upToEnd tokens`: the tokens up to the first end of the file, with it. -/
def upToEnd : List Token → List Token
  | [] => []
  | t :: rest => if t.kind = .endOfFile then [t] else t :: upToEnd rest

/-- `upToEnd tokens` is a prefix of `tokens`. -/
theorem exists_append_upToEnd (tokens : List Token) : ∃ rest, tokens = upToEnd tokens ++ rest := by
  induction tokens with
  | nil => exact ⟨[], rfl⟩
  | cons t tokens ih =>
    rw [upToEnd]
    by_cases hkind : t.kind = .endOfFile
    · rw [if_pos hkind]
      exact ⟨tokens, rfl⟩
    · rw [if_neg hkind]
      obtain ⟨rest, hrest⟩ := ih
      exact ⟨rest, congrArg (t :: ·) hrest⟩

/-- `upToEnd` ends with an end of the file, where there is one. -/
theorem upToEnd_eq_concat {tokens : List Token} (h : ∃ t ∈ tokens, t.kind = .endOfFile) :
    ∃ body final, final.kind = .endOfFile ∧ upToEnd tokens = body ++ [final] := by
  induction tokens with
  | nil =>
    obtain ⟨t, ht, -⟩ := h
    exact absurd ht List.not_mem_nil
  | cons t tokens ih =>
    rw [upToEnd]
    by_cases hkind : t.kind = .endOfFile
    · rw [if_pos hkind]
      exact ⟨[], t, hkind, rfl⟩
    · rw [if_neg hkind]
      obtain ⟨found, hfound, hend⟩ := h
      rcases List.mem_cons.mp hfound with rfl | htail
      · exact absurd hend hkind
      · obtain ⟨body, final, hfinal, hbody⟩ := ih ⟨found, htail, hend⟩
        exact ⟨t :: body, final, hfinal, congrArg (t :: ·) hbody⟩

section Outcomes

variable {tokens others body : List Token} {final : Token}

/-- `walk` over `tokens` is `Walk.statements` along a course that `Reaches` the first end. -/
theorem walk_of_upToEnd (h : upToEnd tokens = body ++ [final]) (rounds : Nat) :
    ∃ c, Walk.Reaches body final c ∧ walk rounds tokens.length tokens = Walk.statements c rounds 0 := by
  obtain ⟨rest, hrest⟩ := exists_append_upToEnd tokens
  rw [h, List.append_assoc, List.singleton_append] at hrest
  have hlength : body.length ≤ tokens.length := by
    rw [hrest, List.length_append]
    exact Nat.le_add_right _ _
  cases hlast : tokens.getLast? with
  | none =>
    rw [List.getLast?_eq_none_iff.mp hlast] at hrest
    exact absurd hrest (by simp)
  | some last =>
    refine ⟨⟨tokens, last, tokens.length⟩, ⟨⟨rest, hrest⟩, hlength⟩, ?_⟩
    unfold walk
    rw [hlast]

variable (hfinal : final.kind = .endOfFile) (hnumbers : NumbersFit (body ++ [final]))
  (htokens : upToEnd tokens = body ++ [final])

include hfinal hnumbers htokens

/-- `parseTokens` does not read on behind the first end: lists with the same `upToEnd` have the same
    outcome. -/
theorem parseTokens_of_upToEnd (hothers : upToEnd others = body ++ [final]) :
    parseTokens others = parseTokens tokens := by
  let rounds := 4 * (tokens.length + others.length) + 1
  obtain ⟨c, hc, hwalk⟩ := walk_of_upToEnd htokens rounds
  obtain ⟨c', hc', hwalk'⟩ := walk_of_upToEnd hothers rounds
  obtain ⟨q, -, hdone⟩ := walk_eq (Nat.le_refl tokens.length) (show 4 * tokens.length + 1 ≤ rounds by omega)
  obtain ⟨q', -, hdone'⟩ := walk_eq (Nat.le_refl others.length) (show 4 * others.length + 1 ≤ rounds by omega)
  have hsame := (Walk.alike_statements hfinal hc hc' hnumbers rounds 0 (Nat.zero_le _)).1
  rw [← hwalk, ← hwalk', hdone, hdone'] at hsame
  injection hsame with houtcome
  exact houtcome.symm

/-- `parseTokens` fails with a fault that is `Refusable` for the tokens up to the first end. -/
theorem refusable_of_parseTokens {fault : Fault} (h : parseTokens tokens = .error fault) :
    Refusable (body ++ [final]) fault := by
  obtain ⟨c, hc, hwalk⟩ := walk_of_upToEnd htokens (4 * tokens.length + 1)
  obtain ⟨q, -, hdone⟩ := walk_eq (Nat.le_refl tokens.length) (Nat.le_refl (4 * tokens.length + 1))
  have hagree := (Walk.alike_statements hfinal hc hc hnumbers (4 * tokens.length + 1) 0 (Nat.zero_le _)).2
  rw [← hwalk] at hagree
  exact (hagree _ _ hdone).2 fault h

end Outcomes

/-- `parseTokens` accepts no list without an end of the file. -/
theorem parseTokens_of_endless {tokens : List Token} (h : ∀ t ∈ tokens, t.kind ≠ .endOfFile)
    (program : List Stmt) : parseTokens tokens ≠ .ok program := by
  intro hparse
  obtain ⟨q, -, hdone⟩ := walk_eq (Nat.le_refl tokens.length) (Nat.le_refl (4 * tokens.length + 1))
  rw [hparse] at hdone
  unfold walk at hdone
  cases hlast : tokens.getLast? with
  | none =>
    rw [hlast] at hdone
    cases hdone
  | some last =>
    rw [hlast] at hdone
    have hends : ∀ p, (Walk.tokenAt ⟨tokens, last, tokens.length⟩ p).kind ≠ .endOfFile := fun p =>
      h _ (Walk.tokenAt_mem (List.mem_of_getLast? hlast) p)
    exact Walk.fruitless_statements hends _ _ _ hdone

/-- `t.Unshowable memory lines fault`: a diagnostic at `t` ends in `fault` instead, because the value of `t` or
    its place cannot be written, or the caret under its column, in one of the lines, cannot be drawn. -/
inductive Token.Unshowable (memory : Text.Memory) (lines : List String) (t : Token) : Fault → Prop where
  | value (hend : t.kind ≠ .endOfFile) (hkind : t.kind ≠ .number)
      (hvalue : t.value.plain = .error .unwritable) : Unshowable memory lines t .unwritable
  | place {fault : Fault}
      (hplace : Fault.ofPlace? memory (Text.lineAt? lines t.line).isSome (.known t.location) = some fault) :
      Unshowable memory lines t fault

/-- `Fault.ofPlace?` gives one of four faults: a number too long to write, or a column too large for a
    caret. -/
theorem Fault.ofPlace?_eq_some {memory : Text.Memory} {quoted : Bool} {place : Origin} {fault : Fault}
    (h : ofPlace? memory quoted place = some fault) :
    fault ∈ [.unwritable, .unindexable, .overlong, .exhausted] := by
  have hrepetition : ∀ width count, ofRepetition? memory width count = some fault →
      fault ∈ [.unwritable, .unindexable, .overlong, .exhausted] := by
    intro width count h
    unfold ofRepetition? at h
    repeat' split at h
    all_goals
      try cases h
      try decide
  unfold ofPlace? at h
  split at h
  · cases h
    decide
  cases place with
  | known l =>
    dsimp only at h
    split at h
    · exact hrepetition _ _ h
    · cases h
  | stray => cases h

/-- `Unshowable` faults are never `outOfTokens`. -/
theorem Token.Unshowable.ne_outOfTokens {memory : Text.Memory} {lines : List String} {t : Token} {fault : Fault}
    (h : t.Unshowable memory lines fault) : fault ≠ .outOfTokens := by
  cases h with
  | value => exact Fault.noConfusion
  | place hplace =>
    rintro rfl
    exact absurd (Fault.ofPlace?_eq_some hplace) (by decide)

/-- A `Refusable` fault, quoted and drawn, is a diagnostic of the grammar, unless the token is `Unshowable`.
    -/
theorem Refusable.drawn {tokens : List Token} {fault : Fault} (h : Refusable tokens fault)
    (memory : Text.Memory) (lines : List String) :
    (∃ d, (fault.quoting lines).drawn memory = .diagnostic d ∧ d.cause.category = some .grammar) ∨
      ∃ t ∈ tokens, t.Unshowable memory lines ((fault.quoting lines).drawn memory) := by
  cases h with
  | @unwritable t ht hend hkind hvalue => exact .inr ⟨t, ht, .value hend hkind hvalue⟩
  | @grammar cause t ht hcause =>
    have hdrawn : ((Fault.report cause (some (.known t.location))).quoting lines).drawn memory =
        (Fault.ofPlace? memory (Text.lineAt? lines t.line).isSome (.known t.location)).getD
          (.diagnostic ⟨cause, some (.known t.location), Text.lineAt? lines t.line⟩) := rfl
    rw [hdrawn]
    cases hplace : Fault.ofPlace? memory (Text.lineAt? lines t.line).isSome (.known t.location) with
    | none => exact .inl ⟨_, rfl, hcause⟩
    | some fault => exact .inr ⟨t, ht, .place hplace⟩

/-- `parseTokens` is safe on every list with `NumbersFit`.  It has its outcome after finitely many rounds of
    `walk`, with no step beyond the end of the list.  Where there is an end of the file, the outcome depends
    on `upToEnd tokens` alone, and is a program or a diagnostic of the grammar, or the fault of a token that
    is `Unshowable`; it is never `outOfTokens`.  Where there is no end, it is no program. -/
theorem parseTokens_safe {tokens : List Token} (hnumbers : NumbersFit tokens) (memory : Text.Memory) :
    (∀ rounds, 4 * tokens.length + 1 ≤ rounds → ∃ position, position ≤ tokens.length ∧
      walk rounds tokens.length tokens = .done (parseTokens tokens) position) ∧
    ((∃ t ∈ tokens, t.kind = .endOfFile) → ∀ file lines,
      (∀ others, upToEnd others = upToEnd tokens →
        Program.ofGivenTokens memory others file lines = Program.ofGivenTokens memory tokens file lines) ∧
      Program.ofGivenTokens memory tokens file lines ≠ .error .outOfTokens ∧
      ((∃ program, Program.ofGivenTokens memory tokens file lines = .ok program) ∨
        (∃ d, Program.ofGivenTokens memory tokens file lines = .error (.diagnostic d) ∧
          d.cause.category = some .grammar) ∨
        ∃ t ∈ upToEnd tokens, ∃ fault, t.Unshowable memory lines fault ∧
          Program.ofGivenTokens memory tokens file lines = .error fault)) ∧
    ((∀ t ∈ tokens, t.kind ≠ .endOfFile) → ∀ file lines program,
      Program.ofGivenTokens memory tokens file lines ≠ .ok program) := by
  refine ⟨fun rounds hrounds => walk_eq (Nat.le_refl _) hrounds, fun hend file lines => ?_, fun hends => ?_⟩
  · obtain ⟨body, final, hfinal, hbody⟩ := upToEnd_eq_concat hend
    have hfit : NumbersFit (body ++ [final]) := by
      intro t ht
      obtain ⟨rest, hrest⟩ := exists_append_upToEnd tokens
      refine hnumbers t ?_
      rw [hrest, hbody]
      exact List.mem_append_left _ ht
    have houtcome : (∃ program, Program.ofGivenTokens memory tokens file lines = .ok program) ∨
        (∃ d, Program.ofGivenTokens memory tokens file lines = .error (.diagnostic d) ∧
          d.cause.category = some .grammar) ∨
        ∃ t ∈ upToEnd tokens, ∃ fault, t.Unshowable memory lines fault ∧
          Program.ofGivenTokens memory tokens file lines = .error fault := by
      unfold Program.ofGivenTokens Program.ofTokens
      cases hparse : parseTokens tokens with
      | ok statements => exact .inl ⟨_, rfl⟩
      | error fault =>
        right
        rw [hbody]
        rcases (refusable_of_parseTokens hfinal hfit hbody hparse).drawn memory lines with
          ⟨d, hd, hcategory⟩ | ⟨t, ht, hshow⟩
        · exact .inl ⟨d, congrArg Except.error hd, hcategory⟩
        · exact .inr ⟨t, ht, _, hshow, rfl⟩
    refine ⟨fun others hothers => ?_, fun hout => ?_, houtcome⟩
    · unfold Program.ofGivenTokens Program.ofTokens
      rw [parseTokens_of_upToEnd hfinal hfit hbody (hothers.trans hbody)]
    · rw [hout] at houtcome
      rcases houtcome with ⟨program, h⟩ | ⟨d, h, -⟩ | ⟨t, -, fault, hshow, h⟩
      · cases h
      · cases h
      · cases h
        exact hshow.ne_outOfTokens rfl
  · intro file lines program h
    unfold Program.ofGivenTokens Program.ofTokens at h
    cases hparse : parseTokens tokens with
    | ok statements => exact parseTokens_of_endless hends statements hparse
    | error fault =>
      rw [hparse] at h
      cases h

/-- The tokens of `exit 7`, with more behind the end of the file. -/
def overlongTokens : List Token :=
  [⟨.exitWord, .text "exit", 1, 1, "f"⟩, ⟨.number, .int 7, 1, 6, "f"⟩, ⟨.endOfFile, .none, 1, 7, "f"⟩,
    ⟨.rightParen, .text ")", 1, 8, "f"⟩, ⟨.endOfFile, .none, 1, 9, "f"⟩, ⟨.minus, .text "-", 1, 9, "f"⟩]

/-- `overlongTokens` has the outcome of its tokens up to the first end: a program, a diagnostic, or an
    `Unshowable` token.  A minus alone is no program. -/
theorem parseTokens_overlongTokens :
    let memory : Text.Memory := ⟨fun _ => true, rfl⟩
    NumbersFit overlongTokens ∧
    (∃ position, position ≤ 6 ∧ walk 25 6 overlongTokens = .done (parseTokens overlongTokens) position) ∧
    Program.ofGivenTokens memory (overlongTokens.take 3) "f" [] =
      Program.ofGivenTokens memory overlongTokens "f" [] ∧
    Program.ofGivenTokens memory overlongTokens "f" [] ≠ .error .outOfTokens ∧
    ((∃ program, Program.ofGivenTokens memory overlongTokens "f" [] = .ok program) ∨
      (∃ d, Program.ofGivenTokens memory overlongTokens "f" [] = .error (.diagnostic d) ∧
        d.cause.category = some .grammar) ∨
      ∃ t ∈ upToEnd overlongTokens, ∃ fault, t.Unshowable memory [] fault ∧
        Program.ofGivenTokens memory overlongTokens "f" [] = .error fault) ∧
    NumbersFit (overlongTokens.drop 5) ∧
    ∀ program, Program.ofGivenTokens memory (overlongTokens.drop 5) "f" [] ≠ .ok program := by
  intro memory
  have hseven : Text.digitCount 7 ≤ Text.digitLimit := by decide
  have hnumbers : NumbersFit overlongTokens := by
    intro t ht hkind
    simp only [overlongTokens, List.mem_cons, List.not_mem_nil, or_false] at ht
    rcases ht with rfl | rfl | rfl | rfl | rfl | rfl
    · cases hkind
    · exact ⟨7, rfl, hseven⟩
    · cases hkind
    · cases hkind
    · cases hkind
    · cases hkind
  have hminus : NumbersFit (overlongTokens.drop 5) := fun t ht => hnumbers t (List.mem_of_mem_drop ht)
  obtain ⟨hwalk, hend, -⟩ := parseTokens_safe hnumbers memory
  obtain ⟨hothers, htokens, houtcome⟩ := hend ⟨_, .tail _ (.tail _ (.head _)), rfl⟩ "f" []
  exact ⟨hnumbers, hwalk 25 (by decide), hothers _ rfl, htokens, houtcome, hminus,
    (parseTokens_safe hminus memory).2.2 (by decide) "f" []⟩

/-- A plus sign, alone in its line and placed far beyond it. -/
def farTokens : List Token :=
  [⟨.plus, .text "+", 1, 9223372036854775808, "f"⟩, ⟨.endOfFile, .none, 1, 2, "f"⟩]

/-- Neither a program nor a diagnostic: there is no text long enough to put a caret below the column. -/
theorem parseTokens_farTokens :
    NumbersFit farTokens ∧ (∃ t ∈ farTokens, t.kind = .endOfFile) ∧
      ∀ memory, Program.ofGivenTokens memory farTokens "f" ["+"] = .error .unindexable := by
  refine ⟨?_, ⟨_, .tail _ (.head _), rfl⟩, fun memory => ?_⟩
  · intro t ht hkind
    simp only [farTokens, List.mem_cons, List.not_mem_nil, or_false] at ht
    rcases ht with rfl | rfl
    · cases hkind
    · cases hkind
  · have hparse : parseTokens farTokens = .error (.report
        (.unexpectedToken "+" (some "'exit', 'for', 'endfor' or an assignment"))
        (some (.known ⟨"f", 1, 9223372036854775808⟩))) := by
      with_unfolding_all rfl
    unfold Program.ofGivenTokens Program.ofTokens
    rw [hparse]
    rfl

end ZebLang
