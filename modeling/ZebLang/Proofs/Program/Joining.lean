/-
  Source texts put together line by line.

  Statements do not cross lines, so the statements of two texts with a line feed between them are those of
  the one and then those of the other, which stand so many lines further down.

  1. A phrase that is moved down the text spells the same, moved down (`Spells.movedDown`), and by moving it up
     again the same holds the other way round.
  2. No statement holds a separator.  So tokens with a separator between them spell a program just if both
     parts do (`SpellsProgram.join`, `SpellsProgram.split`).
-/

import Mathlib.Data.List.Basic
import ZebLang.Proofs.Program.Acceptance
import ZebLang.Proofs.Program.RoundTrip
import ZebLang.Proofs.Token.Locality

namespace ZebLang

/-! ## Phrases further down -/

/-- `e.movedDown k`: the expression `k` lines further down. -/
def Expr.movedDown (k : Int) : Expr → Expr
  | literal value place => .literal value (place.movedDown k)
  | reference name place => .reference name (place.movedDown k)
  | binary left operator right place => .binary (left.movedDown k) operator (right.movedDown k) (place.movedDown k)
  | call name argument place => .call name (argument.movedDown k) (place.movedDown k)

/-- `s.movedDown k`: the statement `k` lines further down. -/
def Stmt.movedDown (k : Int) : Stmt → Stmt
  | exit value place => .exit (value.movedDown k) (place.movedDown k)
  | assign name value place => .assign name (value.movedDown k) (place.movedDown k)
  | loop name range place => .loop name (range.movedDown k) (place.movedDown k)
  | endLoop place => .endLoop (place.movedDown k)

section Moved

variable (k : Int)

theorem Token.movedDown_neg (t : Token) : (t.movedDown k).movedDown (-k) = t := by
  unfold movedDown
  rw [Int.add_neg_cancel_right]

/-- `movedDown` and up again. -/
theorem Token.map_movedDown_neg (tokens : List Token) :
    (tokens.map (movedDown k)).map (movedDown (-k)) = tokens := by
  rw [List.map_map]
  exact List.map_id'' (movedDown_neg k) tokens

variable {tokens : List Token}

/-- `Spells` is kept by `movedDown`. -/
theorem Spells.movedDown {level : Level} {e : Expr} (h : Spells level tokens e) :
    Spells level (tokens.map (Token.movedDown k)) (e.movedDown k) := by
  induction h with
  | number hkind hvalue hfits => exact .number hkind hvalue hfits
  | reference hname => exact .reference hname
  | call hname hopening hargument hclosing ih =>
    rw [List.map_cons, List.map_cons, List.map_append]
    exact .call hname hopening ih hclosing
  | group hopening hinner hclosing ih =>
    rw [List.map_cons, List.map_append]
    exact .group hopening ih hclosing
  | negative hminus hkind hvalue hfits => exact .negative hminus hkind hvalue hfits
  | negation hminus hfirst hoperand ih => exact .negation hminus hfirst ih
  | unary _ ih => exact .unary ih
  | operand _ ih => exact .operand ih
  | join _ hoperator _ ihleft ihright =>
    rw [List.map_append, List.map_cons]
    exact .join ihleft hoperator ihright

/-- `SpellsStatement` is kept by `movedDown`. -/
theorem SpellsStatement.movedDown {s : Stmt} (h : SpellsStatement tokens s) :
    SpellsStatement (tokens.map (Token.movedDown k)) (s.movedDown k) := by
  cases h with
  | exit hword hvalue => exact .exit hword (hvalue.movedDown k)
  | assign hname hsign hvalue => exact .assign hname hsign (hvalue.movedDown k)
  | loop hword hname hjoint hrange => exact .loop hword hname hjoint (hrange.movedDown k)
  | endLoop hword => exact .endLoop hword

/-- `SpellsProgram` is kept by `movedDown`. -/
theorem SpellsProgram.movedDown {program : List Stmt} (h : SpellsProgram tokens program) :
    SpellsProgram (tokens.map (Token.movedDown k)) (program.map (Stmt.movedDown k)) := by
  induction h with
  | finish hfinal => exact .finish hfinal
  | last hstatement hfinal =>
    rw [List.map_append]
    exact .last (hstatement.movedDown k) hfinal
  | blank hseparator _ ih => exact .blank hseparator ih
  | next hstatement hseparator _ ih =>
    rw [List.map_append, List.map_cons]
    exact .next (hstatement.movedDown k) hseparator ih

end Moved

/-! ## Programs put together -/

section Separator

variable {separator final : Token} {body rest : List Token}

/-- `SpellsStatement`: what ends a statement stands behind all of it. -/
theorem SpellsStatement.exists_append {tokens after : List Token} {s : Stmt} {t : Token}
    (h : SpellsStatement tokens s) (ht : t.kind = .endOfFile ∨ t.kind = .newline)
    (heq : tokens ++ after = body ++ t :: rest) :
    ∃ more, body = tokens ++ more ∧ after = more ++ t :: rest := by
  rcases List.append_eq_append_iff.mp heq with ⟨more, hbody, hafter⟩ | ⟨more, htokens, hrest⟩
  · exact ⟨more, hbody, hafter⟩
  · cases more with
    | nil => exact ⟨[], by simp [htokens], hrest.symm⟩
    | cons first more =>
      obtain ⟨rfl, -⟩ := List.cons.inj hrest
      obtain ⟨hend, hnewline⟩ := h.inside t (by simp [htokens])
      exact absurd ht (by simp [hend, hnewline])

/-- `SpellsProgram` for two programs with a separator in the place of the end of the first. -/
theorem SpellsProgram.join (hseparator : separator.kind = .newline) (hfinal : final.kind = .endOfFile)
    {first second : List Stmt} (hfirst : SpellsProgram (body ++ [final]) first)
    (hsecond : SpellsProgram rest second) :
    SpellsProgram (body ++ separator :: rest) (first ++ second) := by
  generalize hall : body ++ [final] = tokens at hfirst
  induction hfirst generalizing body with
  | finish _ =>
    obtain ⟨rfl, -⟩ := List.append_eq_singleton_iff.mp hall |>.resolve_right (by simp)
    exact .blank hseparator hsecond
  | last hstatement _ =>
    obtain ⟨rfl, -⟩ := List.append_inj' hall rfl
    exact .next hstatement hseparator hsecond
  | blank hblank _ ih =>
    cases body with
    | nil =>
      -- the end is no separator
      obtain ⟨rfl, -⟩ := List.cons.inj hall
      cases hfinal.symm.trans hblank
    | cons t body =>
      obtain ⟨rfl, rfl⟩ := List.cons.inj hall
      exact .blank hblank (ih rfl)
  | next hstatement hnewline _ ih =>
    obtain ⟨more, rfl, hmore⟩ := hstatement.exists_append (.inl hfinal) hall.symm
    cases more with
    | nil =>
      obtain ⟨rfl, -⟩ := List.cons.inj hmore
      cases hfinal.symm.trans hnewline
    | cons t more =>
      obtain ⟨rfl, rfl⟩ := List.cons.inj hmore
      rw [List.append_assoc]
      exact .next hstatement hnewline (ih rfl)

/-- `SpellsProgram` with a separator in it comes apart there. -/
theorem SpellsProgram.split (hseparator : separator.kind = .newline) (hfinal : final.kind = .endOfFile)
    {program : List Stmt} (h : SpellsProgram (body ++ separator :: rest) program) :
    ∃ first second, program = first ++ second ∧ SpellsProgram (body ++ [final]) first ∧
      SpellsProgram rest second := by
  generalize hall : body ++ separator :: rest = tokens at h
  -- nothing follows an end, so a separator stands before it
  have hbefore : ∀ {more : List Token} {t : Token}, t.kind = .endOfFile →
      [t] ≠ more ++ separator :: rest := by
    rintro more t ht heq
    obtain ⟨rfl, hone⟩ := List.append_eq_singleton_iff.mp heq.symm |>.resolve_right (by simp)
    obtain ⟨rfl, -⟩ := List.cons.inj hone
    cases ht.symm.trans hseparator
  induction h generalizing body with
  | finish hend => exact absurd hall.symm (hbefore hend)
  | last hstatement hend =>
    obtain ⟨more, -, hmore⟩ := hstatement.exists_append (.inr hseparator) hall.symm
    exact absurd hmore (hbefore hend)
  | blank hblank hothers ih =>
    cases body with
    | nil =>
      obtain ⟨rfl, rfl⟩ := List.cons.inj hall
      exact ⟨[], _, rfl, .finish hfinal, hothers⟩
    | cons t body =>
      obtain ⟨rfl, rfl⟩ := List.cons.inj hall
      obtain ⟨first, second, rfl, hfirst, hsecond⟩ := ih rfl
      exact ⟨first, second, rfl, .blank hblank hfirst, hsecond⟩
  | next hstatement hnewline hothers ih =>
    obtain ⟨more, rfl, hmore⟩ := hstatement.exists_append (.inr hseparator) hall.symm
    cases more with
    | nil =>
      obtain ⟨rfl, rfl⟩ := List.cons.inj hmore
      rw [List.append_nil]
      exact ⟨[_], _, rfl, .last hstatement hfinal, hothers⟩
    | cons t more =>
      obtain ⟨rfl, rfl⟩ := List.cons.inj hmore
      obtain ⟨first, second, rfl, hfirst, hsecond⟩ := ih rfl
      rw [List.append_assoc]
      exact ⟨_ :: first, second, rfl, .next hstatement hnewline hfirst, hsecond⟩

end Separator

/-! ## Source texts put together -/

/-- `ofSource` gives a program just if the text can be read and its tokens spell it. -/
theorem ofSource_eq_ok_iff {source file : String} {p : Program} :
    Program.ofSource source file = .ok p ↔
      (lex source file).fault = none ∧ p.place = ⟨file, 1, 1⟩ ∧
        SpellsProgram (lex source file).tokens p.statements := by
  constructor
  · intro h
    obtain ⟨tokens, hall, hplace, hspells⟩ := spells_of_ofSource h
    unfold Lexed.all at hall
    split at hall
    next => cases hall
    next hfault =>
      cases hall
      exact ⟨hfault, hplace, hspells⟩
  · rintro ⟨hfault, hplace, hspells⟩
    obtain ⟨statements, place⟩ := p
    obtain rfl : place = ⟨file, 1, 1⟩ := hplace
    exact ofSource_of_spells hfault hspells

section Lines

variable {u v file : String}

/-- `ofSource` of two texts that are programs, with a line feed between them. -/
theorem ofSource_join {p q : Program} (hu : Program.ofSource u file = .ok p)
    (hv : Program.ofSource v file = .ok q) :
    Program.ofSource (u ++ "\n" ++ v) file =
      .ok ⟨p.statements ++ q.statements.map (Stmt.movedDown (1 + u.toList.count '\n' : Nat)),
        p.place⟩ := by
  obtain ⟨hufault, huplace, huspells⟩ := ofSource_eq_ok_iff.mp hu
  obtain ⟨hvfault, -, hvspells⟩ := ofSource_eq_ok_iff.mp hv
  obtain ⟨body, final, htokens, hfinal, -, hjoined⟩ := (lex_lineFeed u v file).2 hufault
  rw [htokens] at huspells
  rw [ofSource_eq_ok_iff, hjoined]
  refine ⟨?_, huplace, ?_⟩
  · show (lex v file).fault.map _ = none
    rw [hvfault, Option.map_none]
  · exact huspells.join rfl hfinal (hvspells.movedDown _)

/-- `ofSource` accepts each of two texts that make a program together. -/
theorem exists_ofSource_of_join {r : Program} (h : Program.ofSource (u ++ "\n" ++ v) file = .ok r) :
    (∃ p, Program.ofSource u file = .ok p) ∧ ∃ q, Program.ofSource v file = .ok q := by
  obtain ⟨hfault, -, hspells⟩ := ofSource_eq_ok_iff.mp h
  cases hufault : (lex u file).fault with
  | some fault =>
    rw [(lex_lineFeed u v file).1 fault hufault, hufault] at hfault
    cases hfault
  | none =>
    obtain ⟨body, final, htokens, hfinal, -, hjoined⟩ := (lex_lineFeed u v file).2 hufault
    rw [hjoined] at hfault hspells
    have hvfault : (lex v file).fault = none := Option.map_eq_none_iff.mp hfault
    obtain ⟨first, second, -, hfirst, hsecond⟩ := SpellsProgram.split rfl hfinal hspells
    -- the second part, moved up to where it stood
    have hvspells := hsecond.movedDown (-((1 + u.toList.count '\n' : Nat) : Int))
    rw [show ((lex v file).movedDown (1 + u.toList.count '\n' : Nat)).tokens =
      (lex v file).tokens.map (Token.movedDown (1 + u.toList.count '\n' : Nat)) from rfl,
      Token.map_movedDown_neg] at hvspells
    rw [← htokens] at hfirst
    exact ⟨⟨_, ofSource_of_spells hufault hfirst⟩, ⟨_, ofSource_of_spells hvfault hvspells⟩⟩

end Lines

/-- Source texts are put together line by line.  Of two texts with a line feed between them, the second
    is read only if the first can be read; then the end of the first becomes a separator, and what the
    second gives comes behind it, as many lines further down as the first has.  So the two make a program
    just if each of them does, and its statements are those of the one and then those of the other. -/
theorem ofSource_lineFeed (u v file : String) :
    (∀ fault, (lex u file).fault = some fault → lex (u ++ "\n" ++ v) file = lex u file) ∧
    ((lex u file).fault = none → ∃ body final,
      (lex u file).tokens = body ++ [final] ∧ final.kind = .endOfFile ∧
      final.location = placeBehind file u.toList ∧
      lex (u ++ "\n" ++ v) file =
        ⟨body ++ { final with kind := .newline, value := .text "\n" } ::
            ((lex v file).movedDown (1 + u.toList.count '\n' : Nat)).tokens,
          ((lex v file).movedDown (1 + u.toList.count '\n' : Nat)).fault⟩) ∧
    ((∃ r, Program.ofSource (u ++ "\n" ++ v) file = .ok r) ↔
      (∃ p, Program.ofSource u file = .ok p) ∧ ∃ q, Program.ofSource v file = .ok q) ∧
    ∀ p q, Program.ofSource u file = .ok p → Program.ofSource v file = .ok q →
      Program.ofSource (u ++ "\n" ++ v) file =
        .ok ⟨p.statements ++ q.statements.map (Stmt.movedDown (1 + u.toList.count '\n' : Nat)),
          p.place⟩ := by
  obtain ⟨hfault, hnone⟩ := lex_lineFeed u v file
  refine ⟨hfault, hnone, ⟨?_, ?_⟩, fun p q hp hq => ofSource_join hp hq⟩
  · rintro ⟨r, hr⟩
    exact exists_ofSource_of_join hr
  · rintro ⟨⟨p, hp⟩, ⟨q, hq⟩⟩
    exact ⟨_, ofSource_join hp hq⟩

/-- A line of its own behind a program of two lines, and behind a line that cannot be read. -/
theorem ofSource_lineFeed_exit :
    Program.ofSource ("\nx = 1" ++ "\n" ++ "exit x") "f" =
      .ok ⟨[.assign (.text "x") (.literal (.int 1) ⟨"f", 2, 5⟩) ⟨"f", 2, 1⟩,
        .exit (.reference (.text "x") ⟨"f", 3, 6⟩) ⟨"f", 3, 1⟩], ⟨"f", 1, 1⟩⟩ ∧
    (∃ fault, (lex "x = $" "f").fault = some fault) ∧
      lex ("x = $" ++ "\n" ++ "exit x") "f" = lex "x = $" "f" := by
  have hfirst : Program.ofSource "\nx = 1" "f" =
      .ok ⟨[.assign (.text "x") (.literal (.int 1) ⟨"f", 2, 5⟩) ⟨"f", 2, 1⟩], ⟨"f", 1, 1⟩⟩ := by
    have hlexed : (lex "\nx = 1" "f").all = .ok [⟨.newline, .text "\n", 1, 1, "f"⟩,
        ⟨.identifier, .text "x", 2, 1, "f"⟩, ⟨.assign, .text "=", 2, 3, "f"⟩, ⟨.number, .int 1, 2, 5, "f"⟩,
        ⟨.endOfFile, .none, 2, 6, "f"⟩] := by with_unfolding_all rfl
    exact ofSource_of_all hlexed (by cbv)
  have hsecond : Program.ofSource "exit x" "f" =
      .ok ⟨[.exit (.reference (.text "x") ⟨"f", 1, 6⟩) ⟨"f", 1, 1⟩], ⟨"f", 1, 1⟩⟩ := by
    have hlexed : (lex "exit x" "f").all = .ok [⟨.exitWord, .text "exit", 1, 1, "f"⟩,
        ⟨.identifier, .text "x", 1, 6, "f"⟩, ⟨.endOfFile, .none, 1, 7, "f"⟩] := by with_unfolding_all rfl
    exact ofSource_of_all hlexed (by cbv)
  have hfault : (lex "x = $" "f").fault =
      some (.diagnostic ⟨.invalidCharacter '$', some (.known ⟨"f", 1, 5⟩), some "x = $"⟩) := by
    decide +kernel
  refine ⟨(ofSource_lineFeed _ _ _).2.2.2 _ _ hfirst hsecond, ⟨_, hfault⟩, ?_⟩
  exact (ofSource_lineFeed _ _ _).1 _ hfault

end ZebLang
