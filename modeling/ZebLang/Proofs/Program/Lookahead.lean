/-
  Where the parser stops.

  The parser refuses tokens at the first one that no program has in that place.  What stands before it
  begins a program, and no program begins with it as well.  In two cases the next token has to be seen
  too: a name at the start of a statement is refused if no `=` follows, and a minus is refused for the
  number behind it, which is placed at the minus.

  Each reader is followed on the tokens that it looks at, and on no others.  Either it reads a phrase and
  stands at the token behind it, or it stops at a token, and both stay so whatever comes later
  (`Decided`).  Where it stops, what it has taken can be completed: a name is an operand, and a closing
  parenthesis ends what is open (`Begins`).

  The readers of expressions are taken together (`Decides`), by induction on how many tokens there are;
  that what was read is a phrase is known from `Reading`.
-/

import ZebLang.Proofs.Datum.Writing
import ZebLang.Proofs.Program.Acceptance

namespace ZebLang

/-! ## What begins a phrase -/

/-- `t.IsInner`: a token as a lexer makes it, and not the end. -/
def Token.IsInner (t : Token) : Prop := t.IsLexed ∧ t.kind ≠ .endOfFile

/-- `Completes spelled before`: with inner tokens behind it, `before` is a list that is `spelled`. -/
def Completes (spelled : List Token → Prop) (before : List Token) : Prop :=
  ∃ more, (∀ t ∈ more, t.IsInner) ∧ spelled (before ++ more)

/-- A sign or a word that completes a phrase. -/
def filler (kind : TokenKind) (word : String) : Token := ⟨kind, .text word, 1, 1, ""⟩

/-- A name is an operand. -/
def fillerName : Token := filler .identifier "x"

def fillerClosing : Token := filler .rightParen ")"

def fillerAssign : Token := filler .assign "="

def fillerIn : Token := filler .inWord "in"

@[simp] theorem isInner_fillerName : fillerName.IsInner := ⟨⟨_, rfl⟩, by decide⟩

@[simp] theorem isInner_fillerClosing : fillerClosing.IsInner := ⟨⟨_, rfl⟩, by decide⟩

@[simp] theorem isInner_fillerAssign : fillerAssign.IsInner := ⟨⟨_, rfl⟩, by decide⟩

@[simp] theorem isInner_fillerIn : fillerIn.IsInner := ⟨⟨_, rfl⟩, by decide⟩

namespace Completes

variable {spelled spelled' : List Token → Prop} {before : List Token}

theorem of_spelled (h : spelled before) : Completes spelled before :=
  ⟨[], by simp, by rwa [List.append_nil]⟩

/-- `Completes` for `pre` in front, if what completes it can be followed by `post`. -/
theorem wrap {pre : List Token} (post : List Token) (h : Completes spelled before)
    (hpost : ∀ t ∈ post, t.IsInner)
    (hwrap : ∀ more, spelled (before ++ more) → spelled' (pre ++ ((before ++ more) ++ post))) :
    Completes spelled' (pre ++ before) := by
  obtain ⟨more, hmore, hspelled⟩ := h
  refine ⟨more ++ post, fun t ht => ?_, by simpa using hwrap more hspelled⟩
  rcases List.mem_append.mp ht with ht | ht
  · exact hmore t ht
  · exact hpost t ht

/-- `Completes` for `pre` in front. -/
theorem behind {pre : List Token} (h : Completes spelled before)
    (hbehind : ∀ more, spelled (before ++ more) → spelled' (pre ++ (before ++ more))) :
    Completes spelled' (pre ++ before) :=
  wrap [] h (by simp) fun more hspelled => by simpa using hbehind more hspelled

/-- `Completes` is monotone in what is spelled. -/
theorem mono (h : Completes spelled before) (hmono : ∀ tokens, spelled tokens → spelled' tokens) :
    Completes spelled' before :=
  @behind spelled spelled' before [] h fun _ hspelled => hmono _ hspelled

end Completes

/-- `Begins level before`: an expression of the level begins with `before`. -/
def Begins (level : Level) : List Token → Prop := Completes fun tokens => ∃ e, Spells level tokens e

/-- `BeginsStatement before`: a statement begins with `before`. -/
def BeginsStatement : List Token → Prop := Completes fun tokens => ∃ s, SpellsStatement tokens s

/-- `BeginsProgram before`: the statements of a program begin with `before`. -/
def BeginsProgram : List Token → Prop :=
  Completes fun tokens => ∃ final program, final.kind = .endOfFile ∧
    SpellsProgram (tokens ++ [final]) program

namespace Begins

variable {before : List Token} {level : Level}

/-- `Begins` nothing, at every level: a name is an operand. -/
theorem nil (level : Level) : Begins level [] := by
  have hname : Spells .primary [fillerName] (.reference fillerName.value fillerName.location) :=
    .reference rfl
  refine ⟨[fillerName], by simp, ?_⟩
  cases level with
  | primary => exact ⟨_, hname⟩
  | unary => exact ⟨_, .unary hname⟩
  | chain c => exact ⟨_, (Spells.unary hname).inChain c⟩

theorem unary (h : Begins .primary before) : Begins .unary before :=
  Completes.mono h fun _ ⟨e, he⟩ => ⟨e, .unary he⟩

/-- `Begins` for a chain that begins with an operand. -/
theorem operand {c : Chain} (h : Begins c.operand before) : Begins (.chain c) before :=
  Completes.mono h fun _ ⟨e, he⟩ => ⟨e, .operand he⟩

/-- `Begins` for a call, whose argument has begun. -/
theorem call {name opening : Token} (hname : name.kind = .identifier)
    (hopening : opening.kind = .leftParen) (h : Begins .sum before) :
    Begins .primary ([name, opening] ++ before) :=
  Completes.wrap [fillerClosing] h (by simp)
    fun _ ⟨_, he⟩ => ⟨_, .call hname hopening he rfl⟩

theorem group {opening : Token} (hopening : opening.kind = .leftParen) (h : Begins .sum before) :
    Begins .primary ([opening] ++ before) :=
  Completes.wrap [fillerClosing] h (by simp)
    fun _ ⟨_, he⟩ => ⟨_, .group hopening he rfl⟩

/-- `Begins` for a minus alone, which a name completes. -/
theorem minus {minus : Token} (hminus : minus.kind = .minus) : Begins .unary [minus] := by
  refine ⟨[fillerName], by simp, ?_⟩
  exact ⟨_, @Spells.negation minus fillerName [] _ hminus (by decide) (.unary (.reference rfl))⟩

/-- `Begins` for a minus in front of anything but a number. -/
theorem negation {minus first : Token} {rest : List Token} (hminus : minus.kind = .minus)
    (hfirst : first.kind ≠ .number) (hbefore : before <+: first :: rest) (h : Begins .unary before) :
    Begins .unary ([minus] ++ before) := by
  cases before with
  | nil => exact Begins.minus hminus
  | cons t before =>
    obtain ⟨rfl, -⟩ := List.cons_prefix_cons.mp hbefore
    exact Completes.behind h fun _ ⟨_, he⟩ => ⟨_, .negation hminus hfirst he⟩

/-- `Begins` for a chain behind an operator, whose right operand has begun. -/
theorem join {c : Chain} {operator : Token} {left : List Token} {l : Expr}
    (hleft : Spells (.chain c) left l) (hoperator : c.joins operator.kind = true)
    (h : Begins c.operand before) : Begins (.chain c) (left ++ ([operator] ++ before)) := by
  rw [← List.append_assoc]
  exact Completes.behind h fun _ ⟨_, he⟩ => ⟨_, by simpa using Spells.join hleft hoperator he⟩

end Begins

namespace BeginsStatement

variable {before : List Token}

theorem exit {word : Token} (hword : word.kind = .exitWord) (h : Begins .sum before) :
    BeginsStatement ([word] ++ before) :=
  Completes.behind h fun _ ⟨_, he⟩ => ⟨_, .exit hword he⟩

theorem assign {name sign : Token} (hname : name.kind = .identifier) (hsign : sign.kind = .assign)
    (h : Begins .sum before) : BeginsStatement ([name, sign] ++ before) :=
  Completes.behind h fun _ ⟨_, he⟩ => ⟨_, .assign hname hsign he⟩

theorem loop {word name joint : Token} (hword : word.kind = .forWord) (hname : name.kind = .identifier)
    (hjoint : joint.kind = .inWord) (h : Begins .sum before) :
    BeginsStatement ([word, name, joint] ++ before) :=
  Completes.behind h fun _ ⟨_, he⟩ => ⟨_, .loop hword hname hjoint he⟩

/-- `BeginsStatement` is kept by leaving off tokens at the end. -/
theorem of_append {more : List Token} (hmore : ∀ t ∈ more, t.IsInner)
    (h : BeginsStatement (before ++ more)) : BeginsStatement before := by
  obtain ⟨rest, hrest, hspelled⟩ := h
  refine ⟨more ++ rest, fun t ht => ?_, by rwa [← List.append_assoc]⟩
  rcases List.mem_append.mp ht with ht | ht
  · exact hmore t ht
  · exact hrest t ht

theorem name {name : Token} (hname : name.kind = .identifier) : BeginsStatement [name] :=
  @of_append [name] [fillerAssign] (by simp) (.assign hname rfl (.nil .sum))

theorem nil : BeginsStatement [] :=
  @of_append [] [fillerName] (by simp) (.name rfl)

theorem loopName {word name : Token} (hword : word.kind = .forWord) (hname : name.kind = .identifier) :
    BeginsStatement [word, name] :=
  @of_append [word, name] [fillerIn] (by simp) (.loop hword hname rfl (.nil .sum))

theorem loopWord {word : Token} (hword : word.kind = .forWord) : BeginsStatement [word] :=
  @of_append [word] [fillerName] (by simp) (.loopName hword rfl)

end BeginsStatement

namespace BeginsProgram

variable {before : List Token}

/-- `BeginsProgram` for the beginning of a statement. -/
theorem within (h : BeginsStatement before) : BeginsProgram before :=
  Completes.mono h fun _ ⟨_, hs⟩ => ⟨filler .endOfFile "", _, rfl, .last hs rfl⟩

theorem blank {separator : Token} (hseparator : separator.kind = .newline) (h : BeginsProgram before) :
    BeginsProgram ([separator] ++ before) :=
  Completes.behind h fun _ ⟨final, _, hfinal, hp⟩ => ⟨final, _, hfinal, .blank hseparator hp⟩

/-- `BeginsProgram` behind a statement and a separator. -/
theorem next {separator : Token} {tokens : List Token} {s : Stmt} (hstatement : SpellsStatement tokens s)
    (hseparator : separator.kind = .newline) (h : BeginsProgram before) :
    BeginsProgram ((tokens ++ [separator]) ++ before) :=
  Completes.behind h fun _ ⟨final, _, hfinal, hp⟩ =>
    ⟨final, _, hfinal, by simpa using SpellsProgram.next hstatement hseparator hp⟩

end BeginsProgram

/-! ## Stops -/

/-- What can come before a stop: the beginnings of a phrase (`begins`), and those behind which a statement
    starts (`starts`). -/
structure Spot where
  begins : List Token → Prop
  starts : List Token → Prop

namespace Spot

/-- Inside an expression no statement starts. -/
def expression (level : Level) : Spot := ⟨Begins level, fun _ => False⟩

def statement : Spot := ⟨BeginsStatement, (· = [])⟩

/-- A statement starts at the start of a program, and behind each separator. -/
def program : Spot := ⟨BeginsProgram, fun before => ∀ t ∈ before.getLast?, t.kind = .newline⟩

/-- What stands behind `pre`. -/
def behind (spot : Spot) (pre : List Token) : Spot :=
  ⟨fun before => spot.begins (pre ++ before), fun before => spot.starts (pre ++ before)⟩

/-- `spot.Within tokens pre outer`: what begins at `spot` among `tokens` begins at `outer` behind `pre`. -/
structure Within (spot : Spot) (tokens pre : List Token) (outer : Spot) : Prop where
  begins : ∀ before, before <+: tokens → spot.begins before → outer.begins (pre ++ before)
  starts : ∀ before, spot.starts before → outer.starts (pre ++ before)

/-- A statement starts in a part of a `program` just where it starts in the whole. -/
theorem starts_append {pre before : List Token} (hpre : program.starts pre) (h : program.starts before) :
    program.starts (pre ++ before) := by
  intro t ht
  rw [List.getLast?_append, Option.mem_def, Option.or_eq_some_iff] at ht
  rcases ht with ht | ⟨-, ht⟩
  · exact h t ht
  · exact hpre t ht

theorem behind_behind (spot : Spot) (pre more : List Token) :
    (spot.behind pre).behind more = spot.behind (pre ++ more) := by
  simp only [behind, List.append_assoc]

/-- `Within` for expressions, in which no statement starts. -/
theorem Within.of_begins {level : Level} {tokens pre : List Token} {outer : Spot}
    (h : ∀ before, Begins level before → outer.begins (pre ++ before)) :
    (expression level).Within tokens pre outer :=
  ⟨fun before _ => h before, fun _ => False.elim⟩

end Spot

/-- `OutOfRange minus t`: the number of `t` fits no register, not even with the minus in front of it. -/
def OutOfRange (minus t : Token) : Prop :=
  minus.kind = .minus ∧ t.kind = .number ∧ ∃ n : Nat, t.value = .int n ∧ -Cause.literalMin < n

/-- `spot.Looks before t look`: the tokens `look` behind `t` that have to be seen to refuse it.  There are
    none, or one in two cases. -/
inductive Spot.Looks (spot : Spot) (before : List Token) (t : Token) : List Token → Prop where
  | nothing : Looks spot before t []
  | number {next : Token} (hrange : OutOfRange t next) (hbegins : spot.begins (before ++ [t])) :
      Looks spot before t [next]
  | name {next : Token} (hstarts : spot.starts before) (hname : t.kind = .identifier)
      (hnext : next.kind ≠ .assign) (hbegins : spot.begins (before ++ [t])) : Looks spot before t [next]

/-- `Looks` is kept by tokens in front. -/
theorem Spot.Looks.behind {spot outer : Spot} {tokens pre before look : List Token} {t : Token}
    (h : spot.Looks before t look) (ht : before ++ [t] <+: tokens)
    (hspot : spot.Within tokens pre outer) : outer.Looks (pre ++ before) t look := by
  cases h with
  | nothing => exact .nothing
  | number hrange hbegins =>
    refine .number hrange ?_
    rw [List.append_assoc]
    exact hspot.begins _ ht hbegins
  | name hstarts hname hnext hbegins =>
    refine .name (hspot.starts _ hstarts) hname hnext ?_
    rw [List.append_assoc]
    exact hspot.begins _ ht hbegins

/-- `fault.Concerns t`: the fault is a report at `t`, or that a number cannot be written. -/
def Fault.Concerns (fault : Fault) (t : Token) : Prop :=
  fault = .unwritable ∨ ∃ cause, fault = .report cause (some (.known t.location))

theorem Fault.Concerns.report (cause : Cause) (t : Token) : (Fault.report cause (some (.known t.location))).Concerns t :=
  .inr ⟨cause, rfl⟩

/-- `Stops fails spot tokens`: the tokens fail at one of them, whatever comes behind those that are looked
    at. -/
inductive Stops (fails : List Token → Fault → Prop) (spot : Spot) : List Token → Prop where
  | intro {before after look : List Token} {t : Token} {fault : Fault}
      (hfails : ∀ more, fails (before ++ t :: (look ++ more)) fault) (hplace : fault.Concerns t)
      (hbegins : spot.begins before) (hlook : spot.Looks before t look) :
      Stops fails spot (before ++ t :: (look ++ after))

namespace Stops

variable {fails fails' : List Token → Fault → Prop} {spot outer : Spot} {tokens : List Token}

/-- `Stops` at the first token, without a look ahead. -/
theorem here {t : Token} {rest : List Token} {fault : Fault} (hfails : ∀ more, fails (t :: more) fault)
    (hplace : fault.Concerns t) (hbegins : spot.begins []) : Stops fails spot (t :: rest) :=
  @Stops.intro fails spot [] rest [] t fault hfails hplace hbegins .nothing

/-- `Stops` behind `pre`.  The tokens from there on start as they did, whatever comes later. -/
theorem behind {pre : List Token} (h : Stops fails spot tokens) (hspot : spot.Within tokens pre outer)
    (hfails : ∀ ts fault, ts.head? = tokens.head? → fails ts fault → fails' (pre ++ ts) fault) :
    Stops fails' outer (pre ++ tokens) := by
  obtain @⟨before, after, look, t, fault, hall, hplace, hbegins, hlook⟩ := h
  have hbefore : before <+: before ++ t :: (look ++ after) := List.prefix_append ..
  have ht : before ++ [t] <+: before ++ t :: (look ++ after) := ⟨look ++ after, by simp⟩
  rw [← List.append_assoc]
  refine .intro (fun more => ?_) hplace (hspot.begins _ hbefore hbegins) (hlook.behind ht hspot)
  rw [List.append_assoc]
  refine hfails _ _ ?_ (hall more)
  rw [List.head?_append, List.head?_append]
  rfl

end Stops

/-! ## Readers and what decides them -/

section Decided

variable {α β : Type} {bound bound' : List Token → Nat}
  {run : Token → (tokens : List Token) → Except Fault (Taken α (bound tokens))}
  {run' : Token → (tokens : List Token) → Except Fault (Taken β (bound' tokens))}

/-- `Fails run tokens fault`: the reader `run` fails on `tokens`, whatever it sees past the end. -/
def Fails (run : Token → (tokens : List Token) → Except Fault (Taken α (bound tokens)))
    (tokens : List Token) (fault : Fault) : Prop :=
  ∀ last, run last tokens = .error fault

/-- `Takes run taken next a`: the reader `run` takes `taken` for `a` in front of `next`, whatever comes
    later. -/
def Takes (run : Token → (tokens : List Token) → Except Fault (Taken α (bound tokens)))
    (taken : List Token) (next : Token) (a : α) : Prop :=
  ∀ last more, Yields (run last (taken ++ next :: more)) a (next :: more)

/-- `Decided run spot tokens`: `run` `Takes` a phrase or `Stops`, and the tokens that it looks at decide
    which. -/
inductive Decided (run : Token → (tokens : List Token) → Except Fault (Taken α (bound tokens)))
    (spot : Spot) (tokens : List Token) : Prop where
  | takes {taken after : List Token} {next : Token} {a : α} (htokens : tokens = taken ++ next :: after)
      (h : Takes run taken next a) : Decided run spot tokens
  | stops (h : Stops (Fails run) spot tokens) : Decided run spot tokens

/-- `Follows f x' x`: `x'` gives what `x` gives, changed by `f`, and fails as `x` does. -/
structure Follows {m n : Nat} (f : α → β) (x' : Except Fault (Taken β m)) (x : Except Fault (Taken α n)) :
    Prop where
  yields : ∀ a rest, Yields x a rest → Yields x' (f a) rest
  fails : ∀ fault, x = .error fault → x' = .error fault

theorem Follows.of_agrees {m n : Nat} {x' : Except Fault (Taken α m)} {x : Except Fault (Taken α n)}
    (h : Agrees x' x) : Follows id x' x :=
  ⟨fun _ _ hx => h.yields hx, fun _ hx => h.eq_error hx⟩

theorem Follows.refl {n : Nat} (x : Except Fault (Taken α n)) : Follows id x x :=
  ⟨fun _ _ hx => hx, fun _ hx => hx⟩

/-- `Follows` for a reader that only changes what another one gives. -/
theorem Follows.of_bind {m n : Nat} {f : α → β} {x' : Except Fault (Taken β m)}
    {x : Except Fault (Taken α n)} {h : ∀ a : Taken α n, a.rest.length < m}
    (hx' : x' = x >>= fun a => pure ⟨f a.value, a.rest, h a⟩) : Follows f x' x := by
  subst hx'
  refine ⟨fun a rest hx => hx.bind fun hlt => ⟨_, rfl⟩, fun fault hx => ?_⟩
  rw [hx]
  rfl

/-- `Decided` for a reader behind `pre` that `Follows` a decided one. -/
theorem Decided.behind {spot outer : Spot} {pre tokens : List Token} {f : α → β}
    (h : Decided run spot tokens) (hspot : spot.Within tokens pre outer)
    (hrun : ∀ last ts, ts.head? = tokens.head? → Follows f (run' last (pre ++ ts)) (run last ts)) :
    Decided run' outer (pre ++ tokens) := by
  cases h with
  | @takes taken after next a htokens h =>
    subst htokens
    refine .takes (a := f a) (List.append_assoc ..).symm fun last more => ?_
    rw [List.append_assoc]
    refine (hrun last _ ?_).yields _ _ (h last more)
    rw [List.head?_append, List.head?_append]
    rfl
  | stops h =>
    refine .stops (h.behind hspot fun ts fault hhead hfails last => ?_)
    exact (hrun last ts hhead).fails _ (hfails last)

/-- `Decided` for a reader behind `pre` and what it goes on with. -/
theorem Decided.seq {bound'' : List Token → Nat} {spot outer : Spot} {pre tokens : List Token}
    {tail : α → Token → (tokens : List Token) → Except Fault (Taken β (bound'' tokens))}
    (h : Decided run spot tokens) (hspot : spot.Within tokens pre outer)
    (hfails : ∀ last ts fault, run last ts = .error fault → run' last (pre ++ ts) = .error fault)
    (htail : ∀ taken next after a, tokens = taken ++ next :: after → Takes run taken next a →
      Decided (tail a) (outer.behind (pre ++ taken)) (next :: after))
    (hrun : ∀ taken next a, Takes run taken next a → ∀ last more,
      Agrees (run' last (pre ++ (taken ++ next :: more))) (tail a last (next :: more))) :
    Decided run' outer (pre ++ tokens) := by
  cases h with
  | stops h => exact .stops (h.behind hspot fun ts fault _ h last => hfails last ts fault (h last))
  | @takes taken after next a htokens h =>
    rw [htokens, ← List.append_assoc]
    refine (htail taken next after a htokens h).behind (f := id) ⟨fun _ _ h => h, fun _ h => h⟩ ?_
    intro last ts hhead
    obtain ⟨more, rfl⟩ := List.head?_eq_some_iff.mp hhead
    rw [List.append_assoc]
    exact .of_agrees (hrun taken next a h last more)

end Decided

namespace Parser

variable {tokens : List Token} {last : Token}

/-! ## Tokens that do not fit -/

/-- `unexpected` reports at the token itself. -/
theorem concerns_unexpected (t : Token) (expected : String) : (unexpected t expected).Concerns t := by
  unfold unexpected
  split
  next => exact .report _ t
  next fault hdescribe =>
    left
    unfold describe at hdescribe
    split at hdescribe
    next => cases hdescribe
    next =>
      refine of_bind_eq_error hdescribe (fun hplain => ?_) fun _ h => by cases h
      exact (Datum.covers_plain _ fault hplain).1

/-- `literal` reports at the token where the literal would be placed. -/
theorem concerns_literal {v : Int} {t : Token} {fault : Fault} (h : literal (.int v) t = .error fault) :
    fault.Concerns t := by
  rcases literal_cases v t with ⟨-, -, hok⟩ | ⟨cause, -, herror⟩ | ⟨-, herror⟩
  · rw [hok] at h
    cases h
  · rw [herror] at h
    cases h
    exact .report cause t
  · rw [herror] at h
    cases h
    exact .inl rfl

theorem expect_of_ne {t : Token} {kind : TokenKind} {rest : List Token} (h : t.kind ≠ kind)
    (wanted : String) :
    expect last kind wanted (t :: rest) = .error (.report (.missingToken wanted) (some (.known t.location))) := by
  have hpeek : peekKind last (t :: rest) ≠ kind := h
  rw [expect, if_neg hpeek]
  rfl

/-- `primary` on a token that starts no operand. -/
theorem primary_of_other {t : Token} {rest : List Token} (hnumber : t.kind ≠ .number)
    (hname : t.kind ≠ .identifier) (hopening : t.kind ≠ .leftParen) :
    primary last (t :: rest) = .error (unexpected t "an expression") := by
  rw [primary]
  split
  next hkind => exact absurd hkind hnumber
  next hkind => exact absurd hkind hname
  next hkind => exact absurd hkind hopening
  next => rfl

/-- Behind a token that is not the end, the tokens of a source text go on. -/
theorem exists_next {t : Token} {rest : List Token} (hlexed : WellLexed (t :: rest))
    (ht : t.kind ≠ .endOfFile) : ∃ next after, rest = next :: after ∧ WellLexed (next :: after) := by
  have hrest : WellLexed rest := @WellLexed.rest [t] rest hlexed (by simpa using ht)
  obtain ⟨next, after, rfl, -⟩ := hrest.exists_cons
  exact ⟨next, after, rfl, hrest⟩

/-! ## Expressions -/

/-- What a reader `Takes` spells what it gives, if it `Reads`. -/
theorem spells_of_takes {bound : List Token → Nat} {α : Type} {spells : List Token → α → Prop}
    {due : List Token → Prop}
    {run : Token → (tokens : List Token) → Except Fault (Taken α (bound tokens))}
    {taken after : List Token} {next : Token} {a : α} (h : Takes run taken next a)
    (hlexed : WellLexed (taken ++ next :: after))
    (hreads : ∀ {last : Token} {tokens : List Token}, last.kind = .endOfFile →
      (∀ t ∈ tokens, t.IsLexed) → Reads tokens spells due (run last tokens)) : spells taken a := by
  obtain ⟨hlt, hrun⟩ := h (filler .endOfFile "") after
  have hread := @hreads (filler .endOfFile "") _ rfl hlexed.each
  rw [hrun] at hread
  obtain ⟨same, hsame, hspells⟩ := hread
  rw [List.append_cancel_right hsame]
  exact hspells

/-- `Decides tokens`: the readers of expressions are `Decided` on `tokens`. -/
structure Decides (tokens : List Token) : Prop where
  read : ∀ level, Decided (read · level) (.expression level) tokens
  chainTail : ∀ c before left, Spells (.chain c) before left →
    Decided (chainTail c · left) ((Spot.expression (.chain c)).behind before) tokens

/-- `primary` on a sum in parentheses, with `pre` in front. -/
theorem decided_closed {pre : List Token} {f : Expr → Expr} (h : Decided (chain .sum) (.expression .sum) tokens)
    (hlexed : WellLexed tokens) (hspot : ∀ before, Begins .sum before → Begins .primary (pre ++ before))
    (hrun : ∀ last ts, ∃ hlt : ∀ (inner : Taken Expr ts.length) (closing : Taken Token inner.rest.length),
        closing.rest.length < (pre ++ ts).length, primary last (pre ++ ts) = do
      let inner ← chain .sum last ts
      let closing ← expect last .rightParen ")" inner.rest
      return ⟨f inner.value, closing.rest, hlt inner closing⟩) :
    Decided primary (.expression .primary) (pre ++ tokens) := by
  cases h with
  | stops h =>
    refine .stops (h.behind (.of_begins hspot) fun ts fault _ hfails last => ?_)
    obtain ⟨hlt, hrun⟩ := hrun last ts
    rw [hrun, hfails last]
    rfl
  | @takes taken after next e htokens h =>
    subst htokens
    have hspells := spells_of_takes h hlexed fun hlast hlexed => (readers hlast _ hlexed).read .sum
    by_cases hclosing : next.kind = .rightParen
    · -- the parenthesis is taken too, so the reader stands at what follows it
      have hrest := hlexed.rest fun t ht => (hspells.inside t ht).1
      obtain ⟨next', after', rfl, -⟩ := exists_next hrest (by rw [hclosing]; decide)
      have htakes : Takes primary (pre ++ (taken ++ [next])) next' (f e) := by
        intro last more
        obtain ⟨hlt, hrun⟩ := hrun last (taken ++ next :: next' :: more)
        rw [List.append_assoc, List.append_assoc]
        show Yields (primary last (pre ++ (taken ++ next :: next' :: more))) _ _
        rw [hrun]
        exact (h last (next' :: more)).bind fun h => ⟨_, by rw [expect_of_kind hclosing]; rfl⟩
      have hdecided : Decided primary (.expression .primary)
          ((pre ++ (taken ++ [next])) ++ next' :: after') := .takes rfl htakes
      simpa using hdecided
    · refine .stops ?_
      rw [← List.append_assoc]
      refine @Stops.intro _ _ _ after [] next _ ?_ (.report (.missingToken ")") next)
        (hspot _ (.of_spelled ⟨e, hspells⟩)) .nothing
      intro more last
      obtain ⟨hlt, hrun⟩ := hrun last (taken ++ next :: more)
      obtain ⟨hless, hsum⟩ := h last more
      rw [List.append_assoc]
      show primary last (pre ++ (taken ++ next :: more)) = _
      rw [hrun, hsum, ok_bind]
      dsimp only
      rw [expect_of_ne hclosing]
      rfl

/-- `primary` is `Decided`, if the readers are on fewer tokens. -/
theorem decided_primary (hlexed : WellLexed tokens)
    (ih : ∀ rest, rest.length < tokens.length → WellLexed rest → Decides rest) :
    Decided primary (.expression .primary) tokens := by
  obtain ⟨t, rest, rfl, -⟩ := hlexed.exists_cons
  by_cases hnumber : t.kind = .number
  · obtain ⟨n, hn⟩ := number_of_isLexed (hlexed.each t (by simp)) hnumber
    obtain ⟨next, after, rfl, -⟩ := exists_next hlexed (by rw [hnumber]; decide)
    cases hliteral : literal t.value t with
    | ok e =>
      refine @Decided.takes _ _ _ _ _ [t] after next e rfl fun last more => ?_
      show Yields (primary last (t :: next :: more)) _ _
      rw [primary_of_number hnumber, hliteral]
      exact ⟨_, rfl⟩
    | error fault =>
      refine .stops (.here (fun more last => ?_) (concerns_literal (hn ▸ hliteral)) (.nil _))
      rw [primary_of_number hnumber, hliteral]
      rfl
  by_cases hname : t.kind = .identifier
  · obtain ⟨next, after, rfl, hrest⟩ := exists_next hlexed (by rw [hname]; decide)
    by_cases hopening : next.kind = .leftParen
    · obtain ⟨first, inside, rfl, hinside⟩ := exists_next hrest (by rw [hopening]; decide)
      exact @decided_closed _ [t, next] (.call t.value · t.location) ((ih _ (by simp) hinside).read .sum) hinside
        (fun _ => .call hname hopening) fun last ts => ⟨_, primary_of_call hname hopening⟩
    · refine @Decided.takes _ _ _ _ _ [t] after next (.reference t.value t.location) rfl fun last more => ?_
      have hpeek : peekKind last (next :: more) ≠ .leftParen := hopening
      show Yields (primary last (t :: next :: more)) _ _
      rw [primary_of_name hname hpeek]
      exact ⟨_, rfl⟩
  by_cases hopening : t.kind = .leftParen
  · obtain ⟨first, inside, rfl, hinside⟩ := exists_next hlexed (by rw [hopening]; decide)
    exact @decided_closed _ [t] id ((ih _ (by simp) hinside).read .sum) hinside (fun _ => .group hopening)
      fun last ts => ⟨_, primary_of_group hopening⟩
  · refine .stops (.here (fun more last => ?_) (concerns_unexpected t "an expression") (.nil _))
    exact primary_of_other hnumber hname hopening

/-- `unary` is `Decided`.  The only look ahead is for a number behind a minus. -/
theorem decided_unary (hlexed : WellLexed tokens)
    (ih : ∀ rest, rest.length < tokens.length → WellLexed rest → Decides rest) :
    Decided unary (.expression .unary) tokens := by
  have hprimary := decided_primary hlexed ih
  obtain ⟨t, rest, rfl, -⟩ := hlexed.exists_cons
  by_cases hminus : t.kind = .minus
  · obtain ⟨next, after, rfl, hrest⟩ := exists_next hlexed (by rw [hminus]; decide)
    by_cases hnumber : next.kind = .number
    · -- the minus belongs to the number, and the number is looked at to refuse the minus
      obtain ⟨n, hn⟩ := number_of_isLexed (hrest.each next (by simp)) hnumber
      have hnegative : negativeLiteral t next = literal (.int (-n)) t := by
        unfold negativeLiteral
        rw [hn]
        rfl
      cases hliteral : literal (.int (-n)) t with
      | ok e =>
        obtain ⟨next', after', rfl, -⟩ := exists_next hrest (by rw [hnumber]; decide)
        refine @Decided.takes _ _ _ _ _ [t, next] after' next' e rfl fun last more => ?_
        show Yields (unary last (t :: next :: next' :: more)) _ _
        rw [unary_of_negative hminus hnumber, hnegative, hliteral]
        exact ⟨_, rfl⟩
      | error fault =>
        have hrange : -Cause.literalMin < n := by
          refine Int.not_le.mp fun hfits => ?_
          rw [literal_of_fits (by omega) (by unfold Cause.literalMax; omega)] at hliteral
          cases hliteral
        refine .stops (@Stops.intro _ _ [] after [next] t fault (fun more last => ?_)
          (concerns_literal hliteral) (.nil _) (.number ⟨hminus, hnumber, n, hn, hrange⟩ (.minus hminus)))
        show unary last (t :: next :: more) = _
        rw [unary_of_negative hminus hnumber, hnegative, hliteral]
        rfl
    · refine @Decided.behind _ _ _ _ _ _ _ _ [t] (next :: after)
        (fun e => .binary (.literal (.int 0) t.location) (.text "-") e t.location)
        ((ih _ (by simp) hrest).read .unary) ⟨fun _ => .negation hminus hnumber, fun _ => False.elim⟩ ?_
      intro last ts hhead
      obtain ⟨more, rfl⟩ := List.head?_eq_some_iff.mp hhead
      have hpeek : peekKind last (next :: more) ≠ .number := hnumber
      exact .of_bind (unary_of_negation hminus hpeek)
  · refine @Decided.behind _ _ _ _ _ _ _ _ [] (t :: rest) id hprimary (.of_begins fun _ => .unary) ?_
    intro last ts hhead
    obtain ⟨more, rfl⟩ := List.head?_eq_some_iff.mp hhead
    have hpeek : peekKind last (t :: more) ≠ .minus := hminus
    rw [List.nil_append, unary, if_neg hpeek]
    exact .refl _

/-- `chainTail` is `Decided`, behind tokens that are such a chain already. -/
theorem decided_chainTail {c : Chain} (hlexed : WellLexed tokens)
    (ih : ∀ rest, rest.length < tokens.length → WellLexed rest → Decides rest) {before : List Token}
    {left : Expr} (hleft : Spells (.chain c) before left) :
    Decided (chainTail c · left) ((Spot.expression (.chain c)).behind before) tokens := by
  obtain ⟨operator, rest, rfl, -⟩ := hlexed.exists_cons
  cases hoperator : c.joins operator.kind with
  | false =>
    refine @Decided.takes _ _ _ _ _ [] rest operator left rfl fun last more => ?_
    exact yields_chainTail_of_stop hoperator
  | true =>
    obtain ⟨first, after, rfl, hrest⟩ := exists_next hlexed (Chain.ne_of_joins hoperator ⟨rfl, rfl⟩)
    refine @Decided.seq _ _ _ _ _ _ _ _ _ [operator] (first :: after)
      (fun right last => chainTail c last (.binary left operator.value right operator.location))
      ((ih _ (by simp) hrest).read c.operand) (.of_begins fun _ => .join hleft hoperator) ?_ ?_ ?_
    · intro last ts fault hfails
      have hpeek : c.joins (peekKind last (operator :: ts)) = true := hoperator
      show chainTail c last left (operator :: ts) = _
      rw [chainTail, hpeek, if_pos rfl, take_bind]
      dsimp only
      rw [operand_eq_read, hfails]
      rfl
    · intro taken next more right htokens h
      rw [htokens] at hrest
      have hright := spells_of_takes h hrest fun hlast hlexed => (readers hlast _ hlexed).read c.operand
      have hmore := hrest.rest fun t ht => (hright.inside t ht).1
      have hless : (next :: more).length < (operator :: first :: after).length := by
        rw [htokens]
        simp only [List.length_cons, List.length_append]
        omega
      rw [Spot.behind_behind]
      exact (ih _ hless hmore).chainTail _ _ _ (hleft.join hoperator hright)
    · exact fun taken next right h last more => agrees_chainTail_of_operator hoperator (h last more)

/-- `chain` is `Decided`, if the reader of its operands is. -/
theorem decided_chain {c : Chain} (hlexed : WellLexed tokens)
    (ih : ∀ rest, rest.length < tokens.length → WellLexed rest → Decides rest)
    (hoperand : Decided (read · c.operand) (.expression c.operand) tokens) :
    Decided (chain c) (.expression (.chain c)) tokens := by
  refine @Decided.seq _ _ _ _ _ _ _ _ _ [] tokens (fun left last => chainTail c last left) hoperand
    (.of_begins fun _ => .operand) ?_ ?_ ?_
  · intro last ts fault hfails
    rw [List.nil_append, chain, operand_eq_read, hfails]
    rfl
  · intro taken next after left htokens h
    rw [htokens] at hlexed
    have hleft := spells_of_takes h hlexed fun hlast hlexed => (readers hlast _ hlexed).read c.operand
    obtain ⟨first, rest, rfl⟩ := hleft.exists_cons
    have hafter := hlexed.rest fun t ht => (hleft.inside t ht).1
    have hless : (next :: after).length < tokens.length := by
      rw [htokens]
      simp only [List.length_cons, List.length_append]
      omega
    exact (ih _ hless hafter).chainTail _ _ _ (.operand hleft)
  · intro taken next left h last more
    rw [List.nil_append, chain, operand_eq_read]
    exact .bind (h last more) fun h => .rebound _ _

/-- `Decides` holds on the tokens of every source text, by induction on their number. -/
theorem decides (tokens : List Token) (hlexed : WellLexed tokens) : Decides tokens := by
  have ih : ∀ rest, rest.length < tokens.length → WellLexed rest → Decides rest :=
    fun rest _ hrest => decides rest hrest
  have hunary := decided_unary hlexed ih
  have hproduct := @decided_chain _ .product hlexed ih hunary
  have hsum := @decided_chain _ .sum hlexed ih hproduct
  refine ⟨fun level => ?_, fun _ _ _ hleft => decided_chainTail hlexed ih hleft⟩
  cases level with
  | primary => exact decided_primary hlexed ih
  | unary => exact hunary
  | chain c =>
    cases c with
    | product => exact hproduct
    | sum => exact hsum
termination_by tokens.length

/-! ## Statements -/

/-- `statement` on a token that starts none. -/
theorem statement_of_other {t : Token} {rest : List Token} (hexit : t.kind ≠ .exitWord)
    (hendfor : t.kind ≠ .endforWord) (hfor : t.kind ≠ .forWord)
    (hname : t.kind = .identifier → peekKind last rest ≠ .assign) :
    statement last (t :: rest) =
      .error (unexpected t "'exit', 'for', 'endfor' or an assignment") := by
  unfold statement
  dsimp only
  split
  next hkind => exact absurd hkind hexit
  next hkind => exact absurd hkind hendfor
  next hkind => exact absurd hkind hfor
  next hkind => exact if_neg (hname hkind)
  next => rfl

/-- `statement` on a loop, whatever comes behind its first word. -/
theorem statement_of_for {word : Token} {rest : List Token} (hword : word.kind = .forWord) :
    statement last (word :: rest) = do
      let name ← expect last .identifier "loop variable name" rest
      let joint ← expect last .inWord "in" name.rest
      let range ← chain .sum last joint.rest
      return ⟨.loop name.value.value range.value word.location, range.rest,
        by have := name.lt; have := joint.lt; have := range.lt; simp only [List.length_cons]; omega⟩ := by
  have hpeek : (peek last (word :: rest)).kind = .forWord := hword
  rw [statement, hpeek]
  rfl

/-- `statement` is `Decided` on a loop: each of its words is expected in turn. -/
theorem decided_loop {word : Token} {rest : List Token} (hlexed : WellLexed (word :: rest))
    (hword : word.kind = .forWord) : Decided statement .statement (word :: rest) := by
  obtain ⟨name, rest, rfl, hrest⟩ := exists_next hlexed (by rw [hword]; decide)
  by_cases hname : name.kind = .identifier
  · obtain ⟨joint, rest, rfl, hjoined⟩ := exists_next hrest (by rw [hname]; decide)
    by_cases hjoint : joint.kind = .inWord
    · obtain ⟨first, rest, rfl, hrange⟩ := exists_next hjoined (by rw [hjoint]; decide)
      exact @Decided.behind _ _ _ _ _ _ _ _ [word, name, joint] (first :: rest)
        (.loop name.value · word.location) ((decides _ hrange).read .sum) (.of_begins fun _ => .loop hword hname hjoint)
        fun last ts _ => .of_bind (statement_of_loop hword hname hjoint)
    · refine .stops (@Stops.intro _ _ [word, name] rest [] joint _ (fun more last => ?_)
        (.report (.missingToken "in") joint) (.loopName hword hname) .nothing)
      show statement last (word :: name :: joint :: more) = _
      rw [statement_of_for hword, expect_of_kind hname, ok_bind]
      dsimp only
      rw [expect_of_ne hjoint]
      rfl
  · refine .stops (@Stops.intro _ _ [word] rest [] name _ (fun more last => ?_)
      (.report (.missingToken "loop variable name") name) (.loopWord hword) .nothing)
    show statement last (word :: name :: more) = _
    rw [statement_of_for hword, expect_of_ne hname]
    rfl

/-- `statement` is `Decided`.  The only look ahead is behind a name that starts the statement. -/
theorem decided_statement (hlexed : WellLexed tokens) : Decided statement .statement tokens := by
  obtain ⟨t, rest, rfl, -⟩ := hlexed.exists_cons
  by_cases hexit : t.kind = .exitWord
  · obtain ⟨first, after, rfl, hrest⟩ := exists_next hlexed (by rw [hexit]; decide)
    exact @Decided.behind _ _ _ _ _ _ _ _ [t] (first :: after) (.exit · t.location) ((decides _ hrest).read .sum)
      (.of_begins fun _ => .exit hexit) fun last ts _ => .of_bind (statement_of_exit hexit)
  by_cases hendfor : t.kind = .endforWord
  · obtain ⟨next, after, rfl, -⟩ := exists_next hlexed (by rw [hendfor]; decide)
    refine @Decided.takes _ _ _ _ _ [t] after next (.endLoop t.location) rfl fun last more => ?_
    show Yields (statement last (t :: next :: more)) _ _
    rw [statement_of_endLoop hendfor]
    exact ⟨_, rfl⟩
  by_cases hfor : t.kind = .forWord
  · exact decided_loop hlexed hfor
  have hunexpected := concerns_unexpected t "'exit', 'for', 'endfor' or an assignment"
  by_cases hname : t.kind = .identifier
  · obtain ⟨next, after, rfl, hrest⟩ := exists_next hlexed (by rw [hname]; decide)
    by_cases hassign : next.kind = .assign
    · obtain ⟨first, after, rfl, hvalue⟩ := exists_next hrest (by rw [hassign]; decide)
      exact @Decided.behind _ _ _ _ _ _ _ _ [t, next] (first :: after) (.assign t.value · t.location)
        ((decides _ hvalue).read .sum) (.of_begins fun _ => .assign hname hassign)
        fun last ts _ => .of_bind (statement_of_assign hname hassign)
    · -- the name is refused for the token behind it
      refine .stops (@Stops.intro _ _ [] after [next] t _ (fun more last => ?_) hunexpected .nil
        (.name rfl hname hassign (.name hname)))
      exact statement_of_other hexit hendfor hfor fun _ => hassign
  · refine .stops (.here (fun more last => ?_) hunexpected .nil)
    exact statement_of_other hexit hendfor hfor fun h => absurd h hname

/-! ## Programs -/

/-- `FailsAll tokens fault`: `statements` fails on `tokens`, whatever it sees past the end. -/
def FailsAll (tokens : List Token) (fault : Fault) : Prop :=
  ∀ last, statements last tokens = .error fault

theorem FailsAll.blank {t : Token} {ts : List Token} {fault : Fault} (h : FailsAll ts fault)
    (hkind : t.kind = .newline) : FailsAll (t :: ts) fault := by
  intro last
  have hpeek : peekKind last (t :: ts) = .newline := hkind
  rw [statements, hpeek]
  dsimp only
  rw [take_bind, h last]

theorem FailsAll.of_statement {t : Token} {ts : List Token} {fault : Fault}
    (h : Fails statement (t :: ts) fault) (hend : t.kind ≠ .endOfFile)
    (hseparator : t.kind ≠ .newline) : FailsAll (t :: ts) fault := by
  intro last
  rw [statements]
  split
  next hkind => exact absurd hkind hend
  next hkind => exact absurd hkind hseparator
  next =>
    rw [h last]
    rfl

/-- `statements` with a statement at the start, and what follows it. -/
theorem statements_of_takes {taken more : List Token} {next : Token} {s : Stmt}
    (h : Takes statement taken next s) (hspells : SpellsStatement taken s) :
    statements last (taken ++ next :: more) = match next.kind with
      | .endOfFile => .ok [s]
      | .newline => do return s :: (← statements last more)
      | _ => .error (unexpected next "end of statement") := by
  obtain ⟨hend, hnewline⟩ := @peekKind_of_statement last taken s hspells (next :: more)
  obtain ⟨hlt, hread⟩ := h last more
  rw [statements]
  split
  next hkind => exact absurd hkind hend
  next hkind => exact absurd hkind hnewline
  next =>
    rw [hread]
    rfl

/-- The tokens of a source text spell a program (`SpellsProgram`), or they `Stops`. -/
theorem spells_or_stops (tokens : List Token) (hlexed : WellLexed tokens) :
    (∃ program, SpellsProgram tokens program) ∨ Stops FailsAll .program tokens := by
  generalize hn : tokens.length = n
  induction n using Nat.strongRecOn generalizing tokens with
  | ind n ih =>
  obtain ⟨t, rest, rfl, hend⟩ := hlexed.exists_cons
  rw [List.length_cons] at hn
  by_cases hfinal : t.kind = .endOfFile
  · rw [hend hfinal]
    exact .inl ⟨[], .finish hfinal⟩
  by_cases hseparator : t.kind = .newline
  · have hrest : WellLexed rest := @WellLexed.rest [t] rest hlexed (by simpa using hfinal)
    rcases ih rest.length (by omega) rest hrest rfl with ⟨program, hspells⟩ | hstops
    · exact .inl ⟨program, .blank hseparator hspells⟩
    · refine .inr (@Stops.behind _ _ _ _ _ [t] hstops ⟨fun _ _ => .blank hseparator, ?_⟩ ?_)
      · exact fun _ => Spot.starts_append (by simpa [Spot.program] using hseparator)
      · exact fun ts fault _ hfails => hfails.blank hseparator
  cases decided_statement hlexed with
  | stops hstops =>
    refine .inr (@Stops.behind _ _ _ _ _ [] hstops ⟨fun _ _ => .within, ?_⟩ ?_)
    · rintro _ rfl
      simp [Spot.program]
    · intro ts fault hhead hfails
      obtain ⟨more, rfl⟩ := List.head?_eq_some_iff.mp hhead
      exact .of_statement hfails hfinal hseparator
  | @takes taken after next s htokens h =>
    have hlength := congrArg List.length htokens
    rw [List.length_cons, List.length_append, List.length_cons] at hlength
    rw [htokens] at hlexed ⊢
    have hspells := spells_of_takes h hlexed reads_statement
    have hrest := hlexed.rest fun t ht => (hspells.inside t ht).1
    by_cases hnext : next.kind = .endOfFile
    · obtain ⟨_, _, heq, hlast⟩ := hrest.exists_cons
      cases heq
      rw [hlast hnext]
      exact .inl ⟨[s], .last hspells hnext⟩
    by_cases hnewline : next.kind = .newline
    · have hafter : WellLexed after := @WellLexed.rest [next] after hrest (by simpa using hnext)
      rcases ih after.length (by omega) after hafter rfl with ⟨program, hprogram⟩ | hstops
      · exact .inl ⟨s :: program, .next hspells hnewline hprogram⟩
      · rw [List.append_cons]
        refine .inr (hstops.behind ⟨fun _ _ => .next hspells hnewline, ?_⟩ ?_)
        · exact fun _ => Spot.starts_append (by simpa [Spot.program] using hnewline)
        · intro ts fault _ hfails last
          rw [← List.append_cons, statements_of_takes h hspells, hnewline, hfails last]
          rfl
    · refine .inr (@Stops.intro _ _ taken after [] next _ (fun more last => ?_)
        (concerns_unexpected next "end of statement") (.within (.of_spelled ⟨s, hspells⟩)) .nothing)
      show statements last (taken ++ next :: more) = _
      rw [statements_of_takes h hspells]
      split
      next hkind => exact absurd hkind hnext
      next hkind => exact absurd hkind hnewline
      next => rfl

end Parser

/-! ## The first impossible token -/

/-- `Continues file lines before`: a program begins with `before`. -/
def Continues (file : String) (lines : List String) (before : List Token) : Prop :=
  ∃ more p, WellLexed (before ++ more) ∧ Program.ofTokens (before ++ more) file lines = .ok p

/-- `DeadEnd file lines before`: no program begins with `before`. -/
def DeadEnd (file : String) (lines : List String) (before : List Token) : Prop :=
  ∀ more p, Program.ofTokens (before ++ more) file lines ≠ .ok p

/-- Only the last token of a `WellLexed` list is the end. -/
theorem WellLexed.isInner {before after : List Token} {t : Token}
    (h : WellLexed (before ++ t :: after)) : ∀ s ∈ before, s.IsInner := by
  obtain ⟨body, final, htokens, -, hbody⟩ := h.ends
  have hsame := congrArg List.dropLast htokens
  rw [List.dropLast_concat, List.dropLast_append_of_ne_nil (by simp)] at hsame
  intro s hs
  exact ⟨h.each s (List.mem_append_left _ hs), hbody s (hsame ▸ List.mem_append_left _ hs)⟩

/-- `BeginsProgram` gives a program that begins so, and `Continues` asks for one that is parsed. -/
theorem continues_of_begins {before : List Token} (h : BeginsProgram before)
    (hinner : ∀ t ∈ before, t.IsInner) (file : String) (lines : List String) :
    Continues file lines before := by
  obtain ⟨more, hmore, final, program, hfinal, hspells⟩ := h
  have hall : ∀ t ∈ before ++ more, t.IsInner := fun t ht =>
    (List.mem_append.mp ht).elim (hinner t) (hmore t)
  have hlexed : WellLexed (before ++ more ++ [final]) := by
    refine ⟨fun t ht => ?_, before ++ more, final, rfl, hfinal, fun t ht => (hall t ht).2⟩
    rcases List.mem_append.mp ht with ht | ht
    · exact (hall t ht).1
    · cases List.mem_singleton.mp ht
      unfold Token.IsLexed
      rw [hfinal]
      trivial
  refine ⟨more ++ [final], ⟨program, ⟨file, 1, 1⟩⟩, ?_⟩
  rw [← List.append_assoc]
  refine ⟨hlexed, ?_⟩
  unfold Program.ofTokens
  rw [(parseTokens_eq_ok_iff hlexed).mpr hspells]

/-- `parseTokens` fails where `statements` fails for every last token. -/
theorem parseTokens_of_fails {tokens : List Token} {fault : Fault} (h : Parser.FailsAll tokens fault)
    (hne : tokens ≠ []) : parseTokens tokens = .error fault := by
  unfold parseTokens
  rw [List.getLast?_eq_some_getLast hne]
  exact h _

theorem ofTokens_of_fails {tokens : List Token} {fault : Fault} (h : Parser.FailsAll tokens fault)
    (hne : tokens ≠ []) (file : String) (lines : List String) :
    Program.ofTokens tokens file lines = .error (fault.quoting lines) := by
  unfold Program.ofTokens
  rw [parseTokens_of_fails h hne]

/-- A diagnostic of the parser is placed at the first token that no program has there: what comes before it
    `Continues`, and with it is a `DeadEnd`.  The token behind it has to be seen only for a name that starts
    a statement and for a number that does not fit with its minus (`OutOfRange`). -/
theorem diagnostic_at_first_impossible_token {tokens : List Token} (hlexed : WellLexed tokens)
    {file : String} {lines : List String} {d : Diagnostic}
    (h : Program.ofTokens tokens file lines = .error (.diagnostic d)) :
    ∃ before t after, tokens = before ++ t :: after ∧ d.location = some (.known t.location) ∧
      Continues file lines before ∧
      (DeadEnd file lines (before ++ [t]) ∨
        ∃ next rest, after = next :: rest ∧
          ((∀ s ∈ before.getLast?, s.kind = .newline) ∧ t.kind = .identifier ∧ next.kind ≠ .assign ∨
            OutOfRange t next) ∧
          Continues file lines (before ++ [t]) ∧ DeadEnd file lines (before ++ [t, next])) := by
  rcases Parser.spells_or_stops tokens hlexed with ⟨program, hspells⟩ | hstops
  · unfold Program.ofTokens at h
    rw [(parseTokens_eq_ok_iff hlexed).mpr hspells] at h
    cases h
  · obtain @⟨before, after, look, t, fault, hfails, hplace, hbegins, hlook⟩ := hstops
    have hlocation : d.location = some (.known t.location) := by
      rw [ofTokens_of_fails (hfails after) (by simp)] at h
      rcases hplace with rfl | ⟨cause, rfl⟩
      · cases h
      · cases h
        rfl
    have hdead : DeadEnd file lines (before ++ t :: look) := by
      intro more p hok
      rw [List.append_assoc, List.cons_append, ofTokens_of_fails (hfails more) (by simp)] at hok
      cases hok
    have hinner : ∀ s ∈ before, s.IsInner := hlexed.isInner
    refine ⟨before, t, look ++ after, rfl, hlocation, continues_of_begins hbegins hinner file lines, ?_⟩
    -- a token that needs the one behind it is not the last one, and begins a program itself
    have hcontinues : ∀ {next}, look = [next] → BeginsProgram (before ++ [t]) →
        Continues file lines (before ++ [t]) := by
      rintro next rfl hbegins
      have hlexed : WellLexed ((before ++ [t]) ++ next :: after) := by simpa using hlexed
      exact continues_of_begins hbegins hlexed.isInner file lines
    cases hlook with
    | nothing => exact .inl hdead
    | @number next hrange hbegins =>
      exact .inr ⟨next, after, rfl, .inr hrange, hcontinues rfl hbegins, hdead⟩
    | @name next hstarts hname hnext hbegins =>
      exact .inr ⟨next, after, rfl, .inl ⟨hstarts, hname, hnext⟩, hcontinues rfl hbegins, hdead⟩

/-- The tokens of `exit (-9223372036854775809`. -/
def overrunTokens : List Token :=
  [⟨.exitWord, .text "exit", 1, 1, "f"⟩, ⟨.leftParen, .text "(", 1, 6, "f"⟩,
    ⟨.minus, .text "-", 1, 7, "f"⟩, ⟨.number, .int 9223372036854775809, 1, 8, "f"⟩,
    ⟨.endOfFile, .none, 1, 27, "f"⟩]

/-- `overrunTokens` are refused at the minus for its number, not for the parenthesis that is left open. -/
theorem diagnostic_of_overrunTokens :
    WellLexed overrunTokens ∧
    Program.ofTokens overrunTokens "f" [] = .error (.report (.literalRange "-9223372036854775809")
      (some (.known ⟨"f", 1, 7⟩))) ∧
    ∃ before t after, overrunTokens = before ++ t :: after ∧ t.location = ⟨"f", 1, 7⟩ ∧
      Continues "f" [] before ∧
      (DeadEnd "f" [] (before ++ [t]) ∨
        ∃ next rest, after = next :: rest ∧
          ((∀ s ∈ before.getLast?, s.kind = .newline) ∧ t.kind = .identifier ∧ next.kind ≠ .assign ∨
            OutOfRange t next) ∧
          Continues "f" [] (before ++ [t]) ∧ DeadEnd "f" [] (before ++ [t, next])) := by
  have hlexed : WellLexed overrunTokens := by
    refine ⟨?_, overrunTokens.dropLast, ⟨.endOfFile, .none, 1, 27, "f"⟩, rfl, rfl, by decide⟩
    have hnumber : ∃ n : Nat, (9223372036854775809 : Int) = n := ⟨9223372036854775809, rfl⟩
    simpa [overrunTokens, Token.IsLexed, TokenKind.Carries] using hnumber
  have hparse : parseTokens overrunTokens =
      .error (.report (.literalRange "-9223372036854775809") (some (.known ⟨"f", 1, 7⟩))) := by cbv
  have hdiagnostic : Program.ofTokens overrunTokens "f" [] =
      .error (.report (.literalRange "-9223372036854775809") (some (.known ⟨"f", 1, 7⟩))) := by
    unfold Program.ofTokens
    rw [hparse]
    rfl
  obtain ⟨before, t, after, htokens, hlocation, hrest⟩ :=
    diagnostic_at_first_impossible_token hlexed hdiagnostic
  exact ⟨hlexed, hdiagnostic, before, t, after, htokens, (Origin.known.inj (Option.some.inj hlocation)).symm, hrest⟩

end ZebLang
