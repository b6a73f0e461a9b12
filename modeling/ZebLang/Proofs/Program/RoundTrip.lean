/-
  Parsing undoes printing.

  A tree that source text can spell (`SourceProgram`) has identifiers for names, literals that fit a
  register, and the five operators.  Printed as source text, one statement a line, it is parsed as a tree
  that is equal to it.  The argument goes through the tokens:

  1. The text of an expression is taken apart into tokens whose contents are known, whatever comes
     behind it, and tokens with these contents spell an equal tree (`Renders`).  By induction on the tree:
     operations are printed in parentheses, so each part is spelled by itself, and a negative literal is
     a minus directly before a number.
  2. So it is for statements, and for lines joined by line feeds.
  3. What tokens of a source text spell is such a tree, by induction on how they spell it.
-/

import ZebLang.Datum.Equality
import ZebLang.Proofs.Program.Acceptance
import ZebLang.Proofs.Token.Composition

namespace ZebLang

/-! ## Trees that source text can spell -/

/-- The signs of the operators. -/
def operatorSigns : List String := ["+", "-", "*", "/", "%"]

/-- `SourceExpression d`: an expression that source text can spell. -/
inductive SourceExpression : Datum → Prop where
  | literal {tag : Tag Datum} {n : Int} (htag : tag.title = none) (hlow : Cause.literalMin ≤ n)
      (hhigh : n ≤ Cause.literalMax) : SourceExpression (.literal tag (.int n))
  | reference {tag : Tag Datum} {name : String} (htag : tag.title = none) (hname : IsIdentifier name) :
      SourceExpression (.reference tag (.text name))
  | binary {tag : Tag Datum} {left right : Datum} {operator : String} (htag : tag.title = none)
      (hleft : SourceExpression left) (hoperator : operator ∈ operatorSigns)
      (hright : SourceExpression right) : SourceExpression (.binary tag left (.text operator) right)
  | call {tag : Tag Datum} {name : String} {argument : Datum} (htag : tag.title = none)
      (hname : IsIdentifier name) (hargument : SourceExpression argument) :
      SourceExpression (.call tag (.text name) argument)

/-- `SourceStatement d`: a statement that source text can spell. -/
inductive SourceStatement : Datum → Prop where
  | exit {tag : Tag Datum} {e : Datum} (htag : tag.title = none) (he : SourceExpression e) :
      SourceStatement (.exit tag e)
  | assign {tag : Tag Datum} {name : String} {e : Datum} (htag : tag.title = none) (hname : IsIdentifier name)
      (he : SourceExpression e) : SourceStatement (.assign tag (.text name) e)
  | loop {tag : Tag Datum} {name : String} {e : Datum} (htag : tag.title = none) (hname : IsIdentifier name)
      (he : SourceExpression e) : SourceStatement (.loop tag (.text name) e)
  | endLoop {tag : Tag Datum} (htag : tag.title = none) : SourceStatement (.endLoop tag)

/-- `SourceProgram d`: a program that source text can spell. -/
inductive SourceProgram : Datum → Prop where
  | program {tag : Tag Datum} {statements : List Datum} (htag : tag.title = none)
      (heach : ∀ s ∈ statements, SourceStatement s) : SourceProgram (.program tag statements)

/-- `rendering statements`: the statements as source text, one a line. -/
def rendering (statements : List Datum) : Except Fault String := do
  return Text.joinLines (← statements.mapM Datum.statementText)

/-! ## Equal trees -/

theorem same_int (n : Int) : Datum.same (.int n) (.int n) = true := by
  show (some n == some n) = true
  exact beq_self_eq_true _

theorem same_text (word : String) : Datum.same (.text word) (.text word) = true := by
  show (word == word) = true
  exact beq_self_eq_true _

section Equal

variable {place : Location} {tag : Tag Datum} (htag : tag.title = none)
include htag

theorem untitled_placed : Datum.untitled (.placed place) tag = true := by
  simp [Datum.untitled, Tag.placed, htag]

theorem same_literal (n : Int) :
    Datum.same (.literal (.placed place) (.int n)) (.literal tag (.int n)) = true := by
  show (Datum.untitled _ tag && Datum.same (.int n) (.int n)) = true
  rw [untitled_placed htag, same_int, Bool.and_true]

theorem same_reference (name : String) :
    Datum.same (.reference (.placed place) (.text name)) (.reference tag (.text name)) = true := by
  show (Datum.untitled _ tag && Datum.same (.text name) (.text name)) = true
  rw [untitled_placed htag, same_text, Bool.and_true]

theorem same_binary {l r l' r' : Datum} (operator : String) (hl : Datum.same l l' = true)
    (hr : Datum.same r r' = true) : Datum.same (.binary (.placed place) l (.text operator) r)
      (.binary tag l' (.text operator) r') = true := by
  show (Datum.untitled _ tag && Datum.same l l' && Datum.same (.text operator) (.text operator) &&
    Datum.same r r') = true
  rw [untitled_placed htag, hl, same_text, hr, Bool.and_true, Bool.and_true, Bool.and_true]

theorem same_call {e e' : Datum} (name : String) (he : Datum.same e e' = true) :
    Datum.same (.call (.placed place) (.text name) e) (.call tag (.text name) e') = true := by
  show (Datum.untitled _ tag && Datum.same (.text name) (.text name) && Datum.same e e') = true
  rw [untitled_placed htag, same_text, he, Bool.and_true, Bool.and_true]

theorem same_exit {e e' : Datum} (he : Datum.same e e' = true) :
    Datum.same (.exit (.placed place) e) (.exit tag e') = true := by
  show (Datum.untitled _ tag && Datum.same e e') = true
  rw [untitled_placed htag, he, Bool.and_true]

theorem same_assign {e e' : Datum} (name : String) (he : Datum.same e e' = true) :
    Datum.same (.assign (.placed place) (.text name) e) (.assign tag (.text name) e') = true := by
  show (Datum.untitled _ tag && Datum.same (.text name) (.text name) && Datum.same e e') = true
  rw [untitled_placed htag, same_text, he, Bool.and_true, Bool.and_true]

theorem same_loop {e e' : Datum} (name : String) (he : Datum.same e e' = true) :
    Datum.same (.loop (.placed place) (.text name) e) (.loop tag (.text name) e') = true := by
  show (Datum.untitled _ tag && Datum.same (.text name) (.text name) && Datum.same e e') = true
  rw [untitled_placed htag, same_text, he, Bool.and_true, Bool.and_true]

theorem same_endLoop : Datum.same (.endLoop (.placed place)) (.endLoop tag) = true :=
  untitled_placed htag

theorem same_program {xs ys : List Datum} (h : Datum.sameAll xs ys = true) :
    Datum.same (.program (.placed place) xs) (.program tag ys) = true := by
  show (Datum.untitled _ tag && Datum.sameAll xs ys) = true
  rw [untitled_placed htag, h, Bool.and_true]

end Equal

theorem sameAll_cons {x y : Datum} {xs ys : List Datum} (h : Datum.same x y = true)
    (hs : Datum.sameAll xs ys = true) : Datum.sameAll (x :: xs) (y :: ys) = true := by
  show (Datum.same x y && Datum.sameAll xs ys) = true
  rw [h, hs, Bool.and_true]

/-! ## Text and tokens -/

/-- `Renders meaning text`: with anything behind it that cannot run into it, the text is taken apart into
    tokens of certain contents, and all tokens of these contents have `meaning`. -/
def Renders (meaning : List Token → Prop) (text : String) : Prop :=
  ∃ contents,
    (∀ rest following, Apart rest → Lexes rest following →
      Lexes (text.toList ++ rest) (contents ++ following)) ∧
    ∀ tokens, tokens.map Token.content = contents → meaning tokens

/-- `SpellsSame d tokens`: the tokens spell a tree equal to `d`. -/
def SpellsSame (d : Datum) (tokens : List Token) : Prop :=
  ∃ e, Spells .unary tokens e ∧ Datum.same e.toDatum d = true

/-- `operatorSigns` are scanned as operators that some `Chain` joins. -/
theorem exists_sign {operator : String} (h : operator ∈ operatorSigns) :
    ∃ c kind, operator = String.singleton c ∧
      (∀ rest, scan c rest = .ok ⟨kind, .text (String.singleton c), 1, Nat.one_pos⟩) ∧
      isGapChar c = false ∧ c ≠ '#' ∧ ∃ chain : Chain, chain.joins kind = true := by
  simp only [operatorSigns, List.mem_cons, List.not_mem_nil, or_false] at h
  rcases h with rfl | rfl | rfl | rfl | rfl
  · exact ⟨'+', .plus, rfl, fun _ => rfl, rfl, by decide, .sum, rfl⟩
  · exact ⟨'-', .minus, rfl, fun _ => rfl, rfl, by decide, .sum, rfl⟩
  · exact ⟨'*', .star, rfl, fun _ => rfl, rfl, by decide, .product, rfl⟩
  · exact ⟨'/', .slash, rfl, fun _ => rfl, rfl, by decide, .product, rfl⟩
  · exact ⟨'%', .percent, rfl, fun _ => rfl, rfl, by decide, .product, rfl⟩

/-- The first of the tokens with given contents. -/
theorem exists_of_content_cons {kind : TokenKind} {value : Datum} {more : List (TokenKind × Datum)}
    {tokens : List Token} (h : tokens.map Token.content = (kind, value) :: more) :
    ∃ t rest, tokens = t :: rest ∧ t.kind = kind ∧ t.value = value ∧ rest.map Token.content = more := by
  obtain ⟨t, rest, rfl, ht, hrest⟩ := List.map_eq_cons_iff.mp h
  obtain ⟨hkind, hvalue⟩ := Prod.mk.inj ht
  exact ⟨t, rest, rfl, hkind, hvalue, hrest⟩

/-- The only one of the tokens with given contents. -/
theorem exists_of_content_singleton {kind : TokenKind} {value : Datum} {tokens : List Token}
    (h : tokens.map Token.content = [(kind, value)]) :
    ∃ t, tokens = [t] ∧ t.kind = kind ∧ t.value = value := by
  obtain ⟨t, rest, rfl, hkind, hvalue, hrest⟩ := exists_of_content_cons h
  rw [List.map_eq_nil_iff.mp hrest]
  exact ⟨t, rfl, hkind, hvalue⟩

/-! ## Expressions -/

/-- `Text.decimal` renders a literal; a negative one is a minus directly before a number. -/
theorem renders_literal {n : Int} {tag : Tag Datum} (htag : tag.title = none) (hlow : Cause.literalMin ≤ n)
    (hhigh : n ≤ Cause.literalMax) : Renders (SpellsSame (.literal tag (.int n))) (Text.decimal n) := by
  have hshort := length_toDigits_of_fits hlow hhigh
  rw [Renders, Text.toList_decimal]
  by_cases hn : n < 0
  · refine ⟨[(.minus, .text "-"), (.number, .int n.natAbs)], ?_, ?_⟩
    · intro rest following hapart hrest
      rw [if_pos hn]
      exact .sign rfl (by decide) (fun _ => rfl) (.number hshort hapart hrest)
    · intro tokens htokens
      obtain ⟨minus, rest, rfl, hminus, -, hrest⟩ := exists_of_content_cons htokens
      obtain ⟨t, rfl, hkind, hvalue⟩ := exists_of_content_singleton hrest
      have hspells := Spells.negative hminus hkind hvalue (by omega)
      rw [show -((n.natAbs : Nat) : Int) = n by omega] at hspells
      exact ⟨_, hspells, same_literal htag n⟩
  · refine ⟨[(.number, .int n.natAbs)], ?_, ?_⟩
    · intro rest following hapart hrest
      rw [if_neg hn]
      exact .number hshort hapart hrest
    · intro tokens htokens
      obtain ⟨t, rfl, hkind, hvalue⟩ := exists_of_content_singleton htokens
      have hspells := Spells.number hkind hvalue (by omega)
      rw [show ((n.natAbs : Nat) : Int) = n by omega] at hspells
      exact ⟨_, .unary hspells, same_literal htag n⟩

/-- A name `Renders` the reference to it. -/
theorem renders_reference {name : String} {tag : Tag Datum} (htag : tag.title = none)
    (hname : IsIdentifier name) : Renders (SpellsSame (.reference tag (.text name))) name := by
  refine ⟨[(.identifier, .text name)], ?_, ?_⟩
  · intro rest following hapart hrest
    rw [← TokenKind.ofWord_of_isIdentifier hname]
    exact .word hname.spelled hapart hrest
  · intro tokens htokens
    obtain ⟨t, rfl, hkind, hvalue⟩ := exists_of_content_singleton htokens
    refine ⟨_, .unary (.reference hkind), ?_⟩
    rw [Expr.toDatum, hvalue]
    exact same_reference htag name

/-- `Spells` for two unary expressions and any operator between them. -/
theorem Spells.operation {c : Chain} {left right : List Token} {l r : Expr} {operator : Token}
    (hleft : Spells .unary left l) (hright : Spells .unary right r)
    (hoperator : c.joins operator.kind = true) :
    Spells .sum (left ++ operator :: right) (.binary l operator.value r operator.location) := by
  cases c with
  | product => exact .operand (c := .sum) (.join (c := .product) (hleft.inChain .product) hoperator hright)
  | sum => exact .join (hleft.inChain .sum) hoperator (hright.inChain .product)

/-- `Renders` for an operation: in parentheses, with a blank on each side of its operator. -/
theorem renders_binary {left right : Datum} {l r operator : String} {tag : Tag Datum}
    (htag : tag.title = none) (hleft : Renders (SpellsSame left) l)
    (hright : Renders (SpellsSame right) r) (hoperator : operator ∈ operatorSigns) :
    Renders (SpellsSame (.binary tag left (.text operator) right))
      ("(" ++ l ++ " " ++ operator ++ " " ++ r ++ ")") := by
  obtain ⟨contents, hlexes, hspells⟩ := hleft
  obtain ⟨contents', hlexes', hspells'⟩ := hright
  obtain ⟨c, kind, rfl, hscan, hgap, hcomment, chain, hchain⟩ := exists_sign hoperator
  refine ⟨(.leftParen, .text "(") :: (contents ++ (kind, .text (String.singleton c)) ::
    (contents' ++ [(.rightParen, .text ")")])), ?_, ?_⟩
  · intro rest following _ hrest
    have htext : ("(" ++ l ++ " " ++ String.singleton c ++ " " ++ r ++ ")").toList ++ rest =
        '(' :: (l.toList ++ ' ' :: c :: ' ' :: (r.toList ++ ')' :: rest)) := by simp
    rw [htext]
    have hinner := hlexes' _ _ (apart_cons rfl rest) hrest.closing
    have hsign := (Lexes.sign hgap hcomment hscan hinner.blank).blank
    simpa using (hlexes _ _ (apart_cons rfl _) hsign).opening
  · intro tokens htokens
    obtain ⟨opening, inner, rfl, hopening, -, hinner⟩ := exists_of_content_cons htokens
    obtain ⟨leftTokens, others, rfl, hl, hothers⟩ := List.map_eq_append_iff.mp hinner
    obtain ⟨sign, others, rfl, hsign, hvalue, hothers⟩ := exists_of_content_cons hothers
    obtain ⟨rightTokens, closing, rfl, hr, hclosing⟩ := List.map_eq_append_iff.mp hothers
    obtain ⟨closing, rfl, hclosing, -⟩ := exists_of_content_singleton hclosing
    obtain ⟨e, he, hsame⟩ := hspells _ hl
    obtain ⟨e', he', hsame'⟩ := hspells' _ hr
    rw [← hsign] at hchain
    have hgroup := Spells.group hopening (he.operation he' hchain) hclosing
    refine ⟨_, .unary (by simpa using hgroup), ?_⟩
    rw [Expr.toDatum, hvalue]
    exact same_binary htag _ hsame hsame'

/-- `Renders` for a call. -/
theorem renders_call {argument : Datum} {a name : String} {tag : Tag Datum} (htag : tag.title = none)
    (hname : IsIdentifier name) (hargument : Renders (SpellsSame argument) a) :
    Renders (SpellsSame (.call tag (.text name) argument)) (name ++ "(" ++ a ++ ")") := by
  obtain ⟨contents, hlexes, hspells⟩ := hargument
  refine ⟨(.identifier, .text name) :: (.leftParen, .text "(") ::
    (contents ++ [(.rightParen, .text ")")]), ?_, ?_⟩
  · intro rest following _ hrest
    have htext : (name ++ "(" ++ a ++ ")").toList ++ rest =
        name.toList ++ '(' :: (a.toList ++ ')' :: rest) := by simp
    rw [htext, ← TokenKind.ofWord_of_isIdentifier hname]
    have hinner := (hlexes _ _ (apart_cons rfl rest) hrest.closing).opening
    simpa using Lexes.word hname.spelled (apart_cons rfl _) hinner
  · intro tokens htokens
    obtain ⟨word, others, rfl, hword, hvalue, hothers⟩ := exists_of_content_cons htokens
    obtain ⟨opening, others, rfl, hopening, -, hothers⟩ := exists_of_content_cons hothers
    obtain ⟨argumentTokens, closing, rfl, ha, hclosing⟩ := List.map_eq_append_iff.mp hothers
    obtain ⟨closing, rfl, hclosing, -⟩ := exists_of_content_singleton hclosing
    obtain ⟨e, he, hsame⟩ := hspells _ ha
    refine ⟨_, .unary (.call hword hopening (he.inChain .sum) hclosing), ?_⟩
    rw [Expr.toDatum, hvalue]
    exact same_call htag name hsame

/-- `expressionText` renders every `SourceExpression`, by induction on it. -/
theorem renders_expression {d : Datum} (h : SourceExpression d) :
    ∃ text, d.expressionText = .ok text ∧ Renders (SpellsSame d) text := by
  induction h with
  | @literal tag n htag hlow hhigh =>
    exact ⟨_, writeInt_of_fits hlow hhigh, renders_literal htag hlow hhigh⟩
  | @reference tag name htag hname => exact ⟨name, rfl, renders_reference htag hname⟩
  | @binary tag left right operator htag hleft hoperator hright ihleft ihright =>
    obtain ⟨l, hl, hrendersl⟩ := ihleft
    obtain ⟨r, hr, hrendersr⟩ := ihright
    refine ⟨_, ?_, renders_binary htag hrendersl hrendersr hoperator⟩
    rw [Datum.expressionText, hl, hr]
    rfl
  | @call tag name argument htag hname hargument ih =>
    obtain ⟨a, ha, hrenders⟩ := ih
    refine ⟨_, ?_, renders_call htag hname hrenders⟩
    rw [Datum.expressionText, ha]
    rfl

/-! ## Statements -/

/-- `SpellsSameStatement d tokens`: the tokens spell a statement equal to `d`. -/
def SpellsSameStatement (d : Datum) (tokens : List Token) : Prop :=
  ∃ s, SpellsStatement tokens s ∧ Datum.same s.toDatum d = true

/-- `Lexes` for a word in front of a blank. -/
theorem Lexes.word_blank {w : String} (kind : TokenKind) {contents : List (TokenKind × Datum)}
    {rest : List Char} (hw : IsWord w) (hkind : TokenKind.ofWord w = kind) (h : Lexes rest contents) :
    Lexes (w.toList ++ ' ' :: rest) ((kind, .text w) :: contents) :=
  hkind ▸ .word hw (apart_cons rfl rest) h.blank

theorem renders_exit {e : Datum} {text : String} {tag : Tag Datum} (htag : tag.title = none)
    (he : Renders (SpellsSame e) text) :
    Renders (SpellsSameStatement (.exit tag e)) ("exit " ++ text) := by
  obtain ⟨contents, hlexes, hspells⟩ := he
  refine ⟨(.exitWord, .text "exit") :: contents, ?_, ?_⟩
  · intro rest following hapart hrest
    have hword := Lexes.word_blank .exitWord isWord_exit rfl (hlexes _ _ hapart hrest)
    simpa using hword
  · intro tokens htokens
    obtain ⟨word, others, rfl, hword, -, hothers⟩ := exists_of_content_cons htokens
    obtain ⟨e', he', hsame⟩ := hspells _ hothers
    exact ⟨_, .exit hword (he'.inChain .sum), same_exit htag hsame⟩

theorem renders_assign {e : Datum} {name text : String} {tag : Tag Datum} (htag : tag.title = none)
    (hname : IsIdentifier name) (he : Renders (SpellsSame e) text) :
    Renders (SpellsSameStatement (.assign tag (.text name) e)) (name ++ " = " ++ text) := by
  obtain ⟨contents, hlexes, hspells⟩ := he
  refine ⟨(.identifier, .text name) :: (.assign, .text "=") :: contents, ?_, ?_⟩
  · intro rest following hapart hrest
    have hsign := @Lexes.sign _ _ '=' .assign rfl (by decide) (fun _ => rfl)
      (hlexes _ _ hapart hrest).blank
    have hword := Lexes.word_blank .identifier hname.spelled (TokenKind.ofWord_of_isIdentifier hname) hsign
    simpa using hword
  · intro tokens htokens
    obtain ⟨word, others, rfl, hword, hvalue, hothers⟩ := exists_of_content_cons htokens
    obtain ⟨sign, others, rfl, hsign, -, hothers⟩ := exists_of_content_cons hothers
    obtain ⟨e', he', hsame⟩ := hspells _ hothers
    refine ⟨_, .assign hword hsign (he'.inChain .sum), ?_⟩
    rw [Stmt.toDatum, hvalue]
    exact same_assign htag name hsame

theorem renders_loop {e : Datum} {name text : String} {tag : Tag Datum} (htag : tag.title = none)
    (hname : IsIdentifier name) (he : Renders (SpellsSame e) text) :
    Renders (SpellsSameStatement (.loop tag (.text name) e)) ("for " ++ name ++ " in " ++ text) := by
  obtain ⟨contents, hlexes, hspells⟩ := he
  refine ⟨(.forWord, .text "for") :: (.identifier, .text name) :: (.inWord, .text "in") :: contents,
    ?_, ?_⟩
  · intro rest following hapart hrest
    have hjoint := Lexes.word_blank .inWord isWord_in rfl (hlexes _ _ hapart hrest)
    have hname' := Lexes.word_blank .identifier hname.spelled (TokenKind.ofWord_of_isIdentifier hname) hjoint
    have hword := Lexes.word_blank .forWord isWord_for rfl hname'
    simpa using hword
  · intro tokens htokens
    obtain ⟨word, others, rfl, hword, -, hothers⟩ := exists_of_content_cons htokens
    obtain ⟨variable', others, rfl, hvariable, hvalue, hothers⟩ := exists_of_content_cons hothers
    obtain ⟨joint, others, rfl, hjoint, -, hothers⟩ := exists_of_content_cons hothers
    obtain ⟨e', he', hsame⟩ := hspells _ hothers
    refine ⟨_, .loop hword hvariable hjoint (he'.inChain .sum), ?_⟩
    rw [Stmt.toDatum, hvalue]
    exact same_loop htag name hsame

theorem renders_endLoop {tag : Tag Datum} (htag : tag.title = none) :
    Renders (SpellsSameStatement (.endLoop tag)) "endfor" := by
  refine ⟨[(.endforWord, .text "endfor")], ?_, ?_⟩
  · intro rest following hapart hrest
    exact .word isWord_endfor hapart hrest
  · intro tokens htokens
    obtain ⟨word, rfl, hword, -⟩ := exists_of_content_singleton htokens
    exact ⟨_, .endLoop hword, same_endLoop htag⟩

/-- `statementText` renders every `SourceStatement`. -/
theorem renders_statement {d : Datum} (h : SourceStatement d) :
    ∃ text, d.statementText = .ok text ∧ Renders (SpellsSameStatement d) text := by
  cases h with
  | @exit tag e htag he =>
    obtain ⟨text, htext, hrenders⟩ := renders_expression he
    refine ⟨_, ?_, renders_exit htag hrenders⟩
    rw [Datum.statementText, htext]
    rfl
  | @assign tag name e htag hname he =>
    obtain ⟨text, htext, hrenders⟩ := renders_expression he
    refine ⟨_, ?_, renders_assign htag hname hrenders⟩
    rw [Datum.statementText, htext]
    rfl
  | @loop tag name e htag hname he =>
    obtain ⟨text, htext, hrenders⟩ := renders_expression he
    refine ⟨_, ?_, renders_loop htag hname hrenders⟩
    rw [Datum.statementText, htext]
    rfl
  | @endLoop tag htag => exact ⟨_, rfl, renders_endLoop htag⟩

/-! ## Programs -/

theorem mapM_cons_ok {d : Datum} {line : String} {rest : List Datum} {lines : List String}
    (hd : d.statementText = .ok line) (hrest : rest.mapM Datum.statementText = .ok lines) :
    (d :: rest).mapM Datum.statementText = .ok (line :: lines) := by
  rw [List.mapM_cons, hd, hrest]
  rfl

/-- `Lexes` for the lines of `SourceStatement`s, whose tokens spell equal statements. -/
theorem renders_statements {statements : List Datum} (h : ∀ s ∈ statements, SourceStatement s) :
    ∃ lines contents, statements.mapM Datum.statementText = .ok lines ∧
      lines.length = statements.length ∧ Lexes (Text.joinLines lines).toList contents ∧
      ∀ tokens, tokens.map Token.content = contents →
        ∃ program, SpellsProgram tokens program ∧
          Datum.sameAll (program.map Stmt.toDatum) statements = true := by
  induction statements with
  | nil =>
    refine ⟨[], _, rfl, rfl, .nil, fun tokens htokens => ?_⟩
    obtain ⟨final, rfl, hfinal, -⟩ := exists_of_content_singleton htokens
    exact ⟨[], .finish hfinal, rfl⟩
  | cons s rest ih =>
    obtain ⟨line, hline, contents, hlexes, hspells⟩ := renders_statement (h s (by simp))
    obtain ⟨lines, contents', hlines, hlength, hlexes', hspells'⟩ := ih fun x hx => h x (by simp [hx])
    cases rest with
    | nil =>
      -- the last line ends with the text
      cases hlines
      refine ⟨[line], contents ++ [(.endOfFile, .none)], mapM_cons_ok hline rfl, rfl, ?_, ?_⟩
      · have hall := hlexes [] _ apart_nil .nil
        rw [List.append_nil] at hall
        exact hall
      · intro tokens htokens
        obtain ⟨first, others, rfl, hfirst, hothers⟩ := List.map_eq_append_iff.mp htokens
        obtain ⟨final, rfl, hfinal, -⟩ := exists_of_content_singleton hothers
        obtain ⟨x, hx, hsame⟩ := hspells _ hfirst
        exact ⟨[x], .last hx hfinal, sameAll_cons hsame rfl⟩
    | cons s' rest =>
      -- any other line ends with a line feed
      have hne : lines ≠ [] := List.ne_nil_of_length_pos (by rw [hlength]; exact Nat.succ_pos _)
      refine ⟨line :: lines, contents ++ (.newline, .text "\n") :: contents', mapM_cons_ok hline hlines,
        by rw [List.length_cons, hlength]; rfl, ?_, ?_⟩
      · have htext : (Text.joinLines (line :: lines)).toList =
            line.toList ++ '\n' :: (Text.joinLines lines).toList := by
          unfold Text.joinLines
          rw [String.intercalate_cons_of_ne_nil hne]
          simp
        rw [htext]
        exact hlexes _ _ (apart_cons rfl _) hlexes'.lineFeed
      · intro tokens htokens
        obtain ⟨first, others, rfl, hfirst, hothers⟩ := List.map_eq_append_iff.mp htokens
        obtain ⟨separator, others, rfl, hseparator, -, hothers⟩ := exists_of_content_cons hothers
        obtain ⟨x, hx, hsame⟩ := hspells _ hfirst
        obtain ⟨program, hprogram, hsames⟩ := hspells' _ hothers
        exact ⟨x :: program, .next hx hseparator hprogram, sameAll_cons hsame hsames⟩

/-- `ofSource`, from the tokens of the text and what `parseTokens` makes of them. -/
theorem ofSource_of_all {source file : String} {tokens : List Token} {program : List Stmt}
    (hall : (lex source file).all = .ok tokens) (hparse : parseTokens tokens = .ok program) :
    Program.ofSource source file = .ok ⟨program, ⟨file, 1, 1⟩⟩ := by
  unfold Program.ofSource
  rw [hall, Parser.ok_bind]
  unfold Program.ofTokens
  rw [hparse]

/-- `ofSource` gives what the tokens of the text spell. -/
theorem ofSource_of_spells {source file : String} {program : List Stmt}
    (hfault : (lex source file).fault = none) (hspells : SpellsProgram (lex source file).tokens program) :
    Program.ofSource source file = .ok ⟨program, ⟨file, 1, 1⟩⟩ := by
  have hall : (lex source file).all = .ok (lex source file).tokens := by
    unfold Lexed.all
    rw [hfault]
  exact ofSource_of_all hall ((parseTokens_eq_ok_iff (wellLexed_of_lex hall).1).mpr hspells)

/-- `ofSource` gives what tokens with the contents of the text spell. -/
theorem ofSource_of_lexes {source : String} {contents : List (TokenKind × Datum)}
    (hlexes : Lexes source.toList contents) (file : String) :
    ∃ tokens, tokens.map Token.content = contents ∧ ∀ program, SpellsProgram tokens program →
      Program.ofSource source file = .ok ⟨program, ⟨file, 1, 1⟩⟩ := by
  obtain ⟨hfault, hcontents⟩ := hlexes file (.start source.toList) rfl
  exact ⟨_, hcontents, fun program hspells => ofSource_of_spells hfault hspells⟩

/-- `ofSource` undoes `rendering` on a `SourceProgram`. -/
theorem exists_rendering {tag : Tag Datum} {statements : List Datum}
    (h : SourceProgram (.program tag statements)) (file : String) :
    ∃ text p, rendering statements = .ok text ∧ Program.ofSource text file = .ok p ∧
      Datum.same p.toDatum (.program tag statements) = true := by
  cases h with
  | program htag heach =>
    obtain ⟨lines, contents, hlines, -, hlexes, hspells⟩ := renders_statements heach
    obtain ⟨tokens, htokens, hparse⟩ := ofSource_of_lexes hlexes file
    obtain ⟨program, hprogram, hsame⟩ := hspells tokens htokens
    refine ⟨Text.joinLines lines, ⟨program, ⟨file, 1, 1⟩⟩, ?_, hparse program hprogram,
      same_program htag hsame⟩
    rw [rendering, hlines]
    rfl

/-! ## What source text spells -/

section Parsed

variable {tokens : List Token}

/-- `Holds` for an operator that a `Chain` joins: it carries its sign. -/
theorem value_of_joins {c : Chain} {t : Token} (h : t.kind.Holds t.value) (hkind : c.joins t.kind = true) :
    ∃ sign, t.value = .text sign ∧ sign ∈ operatorSigns := by
  have hcarries := h.1
  cases hk : t.kind with
  | plus | minus | star | slash | percent =>
    rw [hk] at hcarries
    exact ⟨_, hcarries, by decide⟩
  | _ =>
    rw [hk] at hkind
    cases c with
    | product | sum => cases hkind

/-- `Holds` for a name: it carries an identifier. -/
theorem value_of_isName {t : Token} (h : t.kind.Holds t.value) (hkind : t.kind = .identifier) :
    ∃ name, t.value = .text name ∧ IsIdentifier name := h.2 hkind

/-- `Spells` by tokens of a source text gives a `SourceExpression`. -/
theorem Spells.sourceExpression {level : Level} {e : Expr} (h : Spells level tokens e)
    (hholds : ∀ t ∈ tokens, t.kind.Holds t.value) : SourceExpression e.toDatum := by
  induction h with
  | number hkind hvalue hfits =>
    exact .literal rfl (by unfold Cause.literalMin; omega) hfits
  | @reference name hname =>
    obtain ⟨word, hword, hidentifier⟩ := value_of_isName (hholds name (by simp)) hname
    rw [Expr.toDatum, hword]
    exact .reference rfl hidentifier
  | @call name opening closing argument e hname hopening hargument hclosing ih =>
    obtain ⟨word, hword, hidentifier⟩ := value_of_isName (hholds name (by simp)) hname
    rw [Expr.toDatum, hword]
    exact .call rfl hidentifier (ih fun t ht => hholds t (by simp [ht]))
  | group hopening hinner hclosing ih => exact ih fun t ht => hholds t (by simp [ht])
  | negative hminus hkind hvalue hfits =>
    exact .literal rfl (by omega) (by unfold Cause.literalMax; omega)
  | negation hminus hfirst hoperand ih =>
    -- a minus that belongs to no number subtracts from zero
    refine .binary rfl (.literal rfl (by decide) (by decide)) (by decide) ?_
    exact ih fun t ht => hholds t (List.mem_cons_of_mem _ ht)
  | unary _ ih | operand _ ih => exact ih hholds
  | @join c operator left right l r hleft hoperator hright ihleft ihright =>
    obtain ⟨sign, hsign, hmem⟩ := value_of_joins (hholds operator (by simp)) hoperator
    rw [Expr.toDatum, hsign]
    refine .binary rfl (ihleft ?_) hmem (ihright ?_)
    · exact fun t ht => hholds t (by simp [ht])
    · exact fun t ht => hholds t (by simp [ht])

/-- `SpellsStatement` by tokens of a source text gives a `SourceStatement`. -/
theorem SpellsStatement.sourceStatement {s : Stmt} (h : SpellsStatement tokens s)
    (hholds : ∀ t ∈ tokens, t.kind.Holds t.value) : SourceStatement s.toDatum := by
  cases h with
  | exit hword hvalue => exact .exit rfl (hvalue.sourceExpression fun t ht => hholds t (by simp [ht]))
  | @assign name sign value e hname hsign hvalue =>
    obtain ⟨word, hword, hidentifier⟩ := value_of_isName (hholds name (by simp)) hname
    rw [Stmt.toDatum, hword]
    exact .assign rfl hidentifier (hvalue.sourceExpression fun t ht => hholds t (by simp [ht]))
  | @loop word name joint range e hkind hname hjoint hrange =>
    obtain ⟨word, hword, hidentifier⟩ := value_of_isName (hholds name (by simp)) hname
    rw [Stmt.toDatum, hword]
    exact .loop rfl hidentifier (hrange.sourceExpression fun t ht => hholds t (by simp [ht]))
  | endLoop hword => exact .endLoop rfl

theorem SpellsProgram.sourceStatements {program : List Stmt} (h : SpellsProgram tokens program)
    (hholds : ∀ t ∈ tokens, t.kind.Holds t.value) :
    ∀ s ∈ program.map Stmt.toDatum, SourceStatement s := by
  induction h with
  | finish hfinal => exact fun s hs => nomatch hs
  | last hstatement hfinal =>
    refine List.forall_mem_singleton.mpr ?_
    exact hstatement.sourceStatement fun t ht => hholds t (by simp [ht])
  | blank hseparator hrest ih => exact ih fun t ht => hholds t (List.mem_cons_of_mem _ ht)
  | next hstatement hseparator hrest ih =>
    refine List.forall_mem_cons.mpr ⟨?_, ?_⟩
    · exact hstatement.sourceStatement fun t ht => hholds t (by simp [ht])
    · exact ih fun t ht => hholds t (by simp [ht])

end Parsed

/-- `ofSource` gives what the tokens of the text spell, at the start of the file. -/
theorem spells_of_ofSource {source file : String} {p : Program}
    (h : Program.ofSource source file = .ok p) :
    ∃ tokens, (lex source file).all = .ok tokens ∧ p.place = ⟨file, 1, 1⟩ ∧
      SpellsProgram tokens p.statements := by
  unfold Program.ofSource at h
  cases hall : (lex source file).all with
  | error fault =>
    rw [hall] at h
    cases h
  | ok tokens =>
    rw [hall] at h
    change Program.ofTokens tokens file (Text.lines source) = .ok p at h
    unfold Program.ofTokens at h
    cases hparse : parseTokens tokens with
    | error fault =>
      rw [hparse] at h
      cases h
    | ok statements =>
      rw [hparse] at h
      cases h
      exact ⟨tokens, rfl, rfl, (parseTokens_eq_ok_iff (wellLexed_of_lex hall).1).mp hparse⟩

/-- `ofSource` gives a `SourceProgram`. -/
theorem sourceProgram_of_ofSource {source file : String} {p : Program}
    (h : Program.ofSource source file = .ok p) : SourceProgram p.toDatum := by
  obtain ⟨tokens, hall, -, hspells⟩ := spells_of_ofSource h
  exact .program rfl (hspells.sourceStatements (wellLexed_of_lex hall).2)

/-! ## Back and forth -/

/-- `ofSource` undoes `rendering`.  A program with identifiers for names, literals that fit a register and
    the five operators is printed as a text that is parsed as an equal program.  Every program parsed from a
    source text is of this kind, so printing it and parsing that gives back an equal program. -/
theorem ofSource_rendering :
    (∀ tag statements file, SourceProgram (.program tag statements) →
      ∃ text p, rendering statements = .ok text ∧ Program.ofSource text file = .ok p ∧
        Datum.same p.toDatum (.program tag statements) = true) ∧
    ∀ source file p, Program.ofSource source file = .ok p → SourceProgram p.toDatum ∧
      ∀ file', ∃ text q, rendering (p.statements.map Stmt.toDatum) = .ok text ∧
        Program.ofSource text file' = .ok q ∧ Datum.same q.toDatum p.toDatum = true := by
  refine ⟨fun tag statements file h => exists_rendering h file, fun source file p h => ⟨?_, ?_⟩⟩
  · exact sourceProgram_of_ofSource h
  · exact fun file' => exists_rendering (sourceProgram_of_ofSource h) file'

/-- The least literal less a name, and its text. -/
theorem ofSource_rendering_least :
    ∃ p, rendering [.exit {} (.binary {} (.literal {} (.int Cause.literalMin)) (.text "-")
        (.reference {} (.text "x")))] = .ok "exit (-9223372036854775808 - x)" ∧
      Program.ofSource "exit (-9223372036854775808 - x)" "t" = .ok p ∧ SourceProgram p.toDatum := by
  have hname : IsIdentifier "x" := ⟨⟨'x', [], rfl, rfl, fun c hc => nomatch hc⟩, by decide⟩
  have hsource : SourceProgram (.program {} [.exit {} (.binary {} (.literal {} (.int Cause.literalMin))
      (.text "-") (.reference {} (.text "x")))]) := by
    refine .program rfl (List.forall_mem_singleton.mpr (.exit rfl ?_))
    exact .binary rfl (.literal rfl (by decide) (by decide)) (by decide) (.reference rfl hname)
  have htext : rendering [.exit {} (.binary {} (.literal {} (.int Cause.literalMin)) (.text "-")
      (.reference {} (.text "x")))] = .ok "exit (-9223372036854775808 - x)" := rfl
  obtain ⟨text, p, hrendering, hparse, -⟩ := ofSource_rendering.1 _ _ "t" hsource
  rw [htext] at hrendering
  cases hrendering
  exact ⟨p, htext, hparse, (ofSource_rendering.2 _ _ p hparse).1⟩

end ZebLang
