/-
  Emitted text can be read.

  The text of a frame is read back as the lines that were emitted (`assemble_text`), each label under
  its written name.  So what a machine makes of the text is what it makes of the lines.

  1. Operands, mnemonics and labels are pieces: no blank at their ends, and inside them nothing that
     parts operands or ends the code on a line (`Piece`).
  2. So an instruction is split where it was put together, and each part is read back
     (`readable_instr`).
  3. A line is indented code, and the lines of a text are found again.
-/

import ZebLang.Assembly.Frame
import ZebLang.Proofs.Assembly.Reader
import ZebLang.Proofs.Text

namespace ZebLang

namespace Reader

/-! ## Characters of the text -/

/-- `isInner c`: the character neither parts operands nor ends a line or the code on it. -/
def isInner (c : Char) : Bool := c != ',' && c != ';' && c != ':' && !Text.isLineBreak c

/-- `Piece chars`: a piece of code that stands between blanks; not empty, no blank at its ends, and only
    inner characters. -/
structure Piece (chars : List Char) : Prop where
  ne_nil : chars ≠ []
  solid : Text.Solid chars
  inner : ∀ c ∈ chars, isInner c = true

/-- `isPiece chars` decides `Piece chars`. -/
def isPiece (chars : List Char) : Bool :=
  !chars.isEmpty && chars.head?.all (!Text.isBlank ·) && chars.getLast?.all (!Text.isBlank ·) &&
    chars.all isInner

theorem isPiece_iff {chars : List Char} : isPiece chars = true ↔ Piece chars := by
  simp only [isPiece, Bool.and_eq_true, Bool.not_eq_true', List.isEmpty_eq_false_iff, Option.all_eq_true,
    List.all_eq_true]
  constructor
  · rintro ⟨⟨⟨hne, hhead⟩, hlast⟩, hinner⟩
    exact ⟨hne, ⟨hhead, hlast⟩, hinner⟩
  · rintro ⟨hne, ⟨hhead, hlast⟩, hinner⟩
    exact ⟨⟨⟨hne, hhead⟩, hlast⟩, hinner⟩

instance (chars : List Char) : Decidable (Piece chars) := decidable_of_iff _ isPiece_iff

/-- `Piece` for two pieces with inner characters between them. -/
theorem Piece.append {a b c : List Char} (ha : Piece a) (hc : Piece c)
    (hb : ∀ x ∈ b, isInner x = true) : Piece (a ++ b ++ c) := by
  refine ⟨by simp [ha.ne_nil], ⟨?_, ?_⟩, ?_⟩
  · intro x hx
    rw [List.append_assoc, List.head?_append_of_ne_nil _ ha.ne_nil] at hx
    exact ha.solid.1 x hx
  · intro x hx
    rw [List.getLast?_append_of_ne_nil _ hc.ne_nil] at hx
    exact hc.solid.2 x hx
  · intro x hx
    simp only [List.mem_append] at hx
    rcases hx with (hx | hx) | hx
    · exact ha.inner x hx
    · exact hb x hx
    · exact hc.inner x hx

/-- `isInner` holds of a digit, which is no blank either. -/
theorem isInner_of_isDigit {c : Char} (h : c.isDigit = true) :
    isInner c = true ∧ Text.isBlank c = false := by
  have hrange : 48 ≤ c.toNat ∧ c.toNat ≤ 57 := by
    simp only [Char.isDigit, Bool.and_eq_true, decide_eq_true_eq, ge_iff_le] at h
    exact ⟨UInt32.le_iff_toNat_le.mp h.1, UInt32.le_iff_toNat_le.mp h.2⟩
  have hten : c.toNat = 48 ∨ c.toNat = 49 ∨ c.toNat = 50 ∨ c.toNat = 51 ∨ c.toNat = 52 ∨
      c.toNat = 53 ∨ c.toNat = 54 ∨ c.toNat = 55 ∨ c.toNat = 56 ∨ c.toNat = 57 := by omega
  rw [← Char.ofNat_toNat c]
  rcases hten with h | h | h | h | h | h | h | h | h | h <;> rw [h] <;> decide

/-- `Piece` holds of decimal text. -/
theorem piece_decimal (n : Int) : Piece (Text.decimal n).toList := by
  have hchar : ∀ c ∈ (Text.decimal n).toList, isInner c = true ∧ Text.isBlank c = false := by
    intro c hc
    rcases Text.mem_decimal hc with h | rfl
    · exact isInner_of_isDigit h
    · decide
  refine ⟨?_, ⟨fun c hc => (hchar c (List.mem_of_mem_head? hc)).2,
    fun c hc => (hchar c (List.mem_of_mem_getLast? hc)).2⟩, fun c hc => (hchar c hc).1⟩
  rw [Text.toList_decimal]
  split
  · simp
  · exact Nat.toDigits_ne_nil

/-- `register?` reads back a known register. -/
theorem register?_text {r : Register} (h : r.IsKnown) : register? r.text = some r := by
  cases r with
  | named name => exact absurd h (by simp [Register.IsKnown, Register.known])
  | _ => decide

theorem piece_register {r : Register} (h : r.IsKnown) :
    Piece r.text.toList ∧ ∀ c ∈ r.text.toList, c ≠ '+' := by
  cases r with
  | named name => exact absurd h (by simp [Register.IsKnown, Register.known])
  | _ =>
    refine ⟨by decide, ?_⟩
    rintro c hc rfl
    exact absurd hc (by decide)

/-! ## Operands -/

/-- `digits?` reads back what `toDigits` writes. -/
theorem digits?_toDigits (n : Nat) : digits? (Nat.toDigits 10 n) = some n := by
  unfold digits?
  rw [if_pos, Text.ofDigits_toDigits]
  exact ⟨Nat.toDigits_ne_nil, List.all_eq_true.mpr (Text.isDigit_toDigits n)⟩

theorem number?_toDigits (n : Nat) : number? (Nat.toDigits 10 n) = some (n : Int) := by
  have hdigit := Text.isDigit_toDigits n
  unfold number?
  split
  · next digits heq =>
    -- digits do not start with a minus
    rw [heq] at hdigit
    exact absurd (hdigit '-' (by simp)) (by decide)
  · rw [digits?_toDigits, Option.map_some]

/-- `number?` reads back an integer in decimal. -/
theorem number?_decimal (n : Int) : number? (Text.decimal n).toList = some n := by
  rw [Text.toList_decimal]
  split
  · rw [number?, digits?_toDigits, Option.map_some]
    congr 1
    omega
  · rw [number?_toDigits]
    congr 1
    omega

/-- `address?` reads back a base register and an offset. -/
theorem address?_text {base : Register} (h : base.IsKnown) (offset : Int) :
    address? (base.text.toList ++ [' ', '+', ' '] ++ (Text.decimal offset).toList ++ [']']) =
      some (base, some offset) := by
  obtain ⟨hbase, hplus⟩ := piece_register h
  have hblank : ∀ c ∈ [' '], Text.isBlank c = true := List.all_eq_true.mp rfl
  have hstop : ∀ c ∈ base.text.toList ++ [' '], (c != '+') = true := by
    intro c hc
    rcases List.mem_append.mp hc with hc | hc
    · simpa using hplus c hc
    · simp only [List.mem_singleton] at hc
      subst hc
      decide
  have hsplit : base.text.toList ++ [' ', '+', ' '] ++ (Text.decimal offset).toList =
      (base.text.toList ++ [' ']) ++ '+' :: ([' '] ++ (Text.decimal offset).toList) := by simp
  unfold address?
  rw [if_pos List.getLast?_concat, List.dropLast_concat, hsplit]
  dsimp only
  rw [List.takeWhile_append_of_pos hstop, List.dropWhile_append_of_pos hstop,
    List.takeWhile_cons_of_neg (by decide), List.dropWhile_cons_of_neg (by decide), List.append_nil,
    Text.trim_append_blanks hblank hbase.solid hbase.ne_nil, String.ofList_toList,
    register?_text h]
  simp only [Text.trim_blanks_append hblank (piece_decimal offset).solid, String.toList_ofList,
    number?_decimal]
  rfl

/-- `operand?` reads back a constant, which is neither a register nor in brackets. -/
theorem operand?_decimal (n : Int) : operand? (Text.decimal n) = some (.imm n) := by
  have hmem : ∀ c ∈ (Text.decimal n).toList, c.isDigit = true ∨ c = '-' := fun c => Text.mem_decimal
  have hother : ∀ text : String, (∃ c ∈ text.toList, c.isDigit = false ∧ c ≠ '-') →
      Text.decimal n ≠ text := by
    rintro text ⟨c, hc, hdigit, hminus⟩ rfl
    rcases hmem c hc with h | h
    · rw [hdigit] at h
      cases h
    · exact hminus h
  have hregister : register? (Text.decimal n) = none := by
    refine List.find?_eq_none.mpr fun r hr heq => ?_
    refine hother r.text ?_ (by simpa using Eq.symm (by simpa using heq))
    have hknown : Register.known.all (fun r => r.text.toList.any fun c => !c.isDigit && c != '-') =
        true := by decide
    obtain ⟨c, hc, hc'⟩ := List.any_eq_true.mp (List.all_eq_true.mp hknown r hr)
    exact ⟨c, hc, by simpa using hc'⟩
  unfold operand?
  split
  · next inner heq =>
    rw [heq] at hmem
    exact absurd (hmem '[' (by simp)) (by decide)
  · next inner heq =>
    rw [heq] at hmem
    exact absurd (hmem 'b' (by simp)) (by decide)
  · rw [if_neg (hother "dl" ⟨'d', by decide, by decide⟩), hregister]
    simp only [number?_decimal, Option.map_some]

/-- `operand?` reads back a known operand. -/
theorem operand?_text {o : Operand} (h : o.IsKnown) : operand? o.text = some o := by
  cases o with
  | reg r =>
    cases r with
    | named name => exact absurd h (by simp [Operand.IsKnown, Register.IsKnown, Register.known])
    | _ => decide
  | dl => decide
  | imm value => exact operand?_decimal value
  | mem base offset =>
    cases offset with
    | none =>
      cases base with
      | named name => exact absurd h (by simp [Operand.IsKnown, Register.IsKnown, Register.known])
      | _ => decide
    | some offset =>
      have htext : (Operand.mem base (some offset)).text.toList = '[' ::
          (base.text.toList ++ [' ', '+', ' '] ++ (Text.decimal offset).toList ++ [']']) := by
        simp [Operand.text]
      unfold operand?
      rw [htext]
      simp only [address?_text h, Option.map_some]
  | byteMem base =>
    cases base with
    | named name => exact absurd h (by simp [Operand.IsKnown, Register.IsKnown, Register.known])
    | _ => decide

/-- `Piece` holds of a known operand. -/
theorem piece_operand {o : Operand} (h : o.IsKnown) : Piece o.text.toList := by
  have hopen : Piece ['['] := by decide
  have hclose : Piece [']'] := by decide
  have hbyte : Piece "byte [".toList := by decide
  cases o with
  | reg r => exact (piece_register h).1
  | dl => decide
  | imm value => exact piece_decimal value
  | mem base offset =>
    cases offset with
    | none =>
      have := hopen.append hclose (piece_register h).1.inner
      simpa [Operand.text] using this
    | some offset =>
      have hinner : ∀ x ∈ base.text.toList ++ [' ', '+', ' '] ++ (Text.decimal offset).toList,
          isInner x = true := by
        intro x hx
        simp only [List.mem_append] at hx
        rcases hx with (hx | hx) | hx
        · exact (piece_register h).1.inner x hx
        · have hjoint : ∀ x ∈ [' ', '+', ' '], isInner x = true := List.all_eq_true.mp rfl
          exact hjoint x hx
        · exact (piece_decimal offset).inner x hx
      have := hopen.append hclose hinner
      simpa [Operand.text] using this
  | byteMem base =>
    have := hbyte.append hclose (piece_register h).1.inner
    simpa [Operand.text] using this

/-! ## Instructions -/

/-- `Mnemonic chars`: a piece without a blank that does not look like a directive. -/
structure Mnemonic (chars : List Char) : Prop extends Piece chars where
  noBlank : ∀ c ∈ chars, (c != ' ') = true
  noDirective : chars.head? ≠ some 'g'

/-- `Readable code i`: the code of a line that is read as an instruction. -/
structure Readable (code : List Char) (i : Instr) : Prop where
  solid : Text.Solid code
  plain : ∀ c ∈ code, c ≠ ';' ∧ c ≠ ':' ∧ Text.isLineBreak c = false
  noDirective : code ≠ [] ∧ code.head? ≠ some 'g'
  read : instr? code = some i

theorem plain_of_isInner {c : Char} (h : isInner c = true) :
    c ≠ ';' ∧ c ≠ ':' ∧ Text.isLineBreak c = false := by
  simp only [isInner, Bool.and_eq_true, bne_iff_ne, ne_eq, Bool.not_eq_true'] at h
  exact ⟨h.1.1.2, h.1.2, h.2⟩

theorem ne_comma_of_isInner {c : Char} (h : isInner c = true) : (c != ',') = true := by
  simp only [isInner, Bool.and_eq_true] at h
  exact h.1.1.1

/-- `Readable` for a mnemonic, something in the middle and a piece at the end. -/
theorem Readable.of_parts {w middle last : List Char} {i : Instr} (hw : Mnemonic w)
    (hlast : Piece last) (hmiddle : ∀ c ∈ middle, c ≠ ';' ∧ c ≠ ':' ∧ Text.isLineBreak c = false)
    (hread : instr? (w ++ middle ++ last) = some i) : Readable (w ++ middle ++ last) i := by
  have hhead : (w ++ middle ++ last).head? = w.head? := by
    rw [List.append_assoc, List.head?_append_of_ne_nil _ hw.ne_nil]
  have hend : (w ++ middle ++ last).getLast? = last.getLast? :=
    List.getLast?_append_of_ne_nil _ hlast.ne_nil
  refine ⟨⟨?_, ?_⟩, ?_, ⟨by simp [hw.ne_nil], ?_⟩, hread⟩
  · rw [hhead]
    exact hw.solid.1
  · rw [hend]
    exact hlast.solid.2
  · intro c hc
    simp only [List.mem_append] at hc
    rcases hc with (hc | hc) | hc
    · exact plain_of_isInner (hw.inner c hc)
    · exact hmiddle c hc
    · exact plain_of_isInner (hlast.inner c hc)
  · rw [hhead]
    exact hw.noDirective

/-- `Readable` for an instruction with two operands, by its mnemonic. -/
theorem readable_twoOperands {w a b : String} {i : Instr} (hw : Mnemonic w.toList)
    (ha : Piece a.toList) (hb : Piece b.toList) (hread : binary? w a b = some i) :
    Readable (twoOperands w a b).toList i := by
  have hparts : (twoOperands w a b).toList =
      w.toList ++ ([' '] ++ a.toList ++ [',', ' ']) ++ b.toList := by simp [twoOperands]
  have hoperands : operandTexts (a.toList ++ ',' :: ([' '] ++ b.toList)) = [a, b] := by
    have hcomma : ∀ c ∈ a.toList, (c != ',') = true := fun c hc => ne_comma_of_isInner (ha.inner c hc)
    have hblank : ∀ c ∈ [' '], Text.isBlank c = true := List.all_eq_true.mp rfl
    unfold operandTexts
    rw [if_neg (by simp), List.dropWhile_append_of_pos hcomma, List.takeWhile_append_of_pos hcomma,
      List.dropWhile_cons_of_neg (by decide), List.takeWhile_cons_of_neg (by decide),
      List.append_nil]
    simp only [Text.trim_blanks_append hblank hb.solid, String.ofList_toList,
      Text.trim_of_solid ha.solid]
  rw [hparts]
  refine Readable.of_parts hw hb ?_ ?_
  · intro c hc
    simp only [List.mem_append] at hc
    rcases hc with (hc | hc) | hc
    · rw [List.mem_singleton.mp hc]
      decide
    · exact plain_of_isInner (ha.inner c hc)
    · simp only [List.mem_cons, List.not_mem_nil, or_false] at hc
      rcases hc with rfl | rfl
      · decide
      · decide
  · have hsplit : w.toList ++ ([' '] ++ a.toList ++ [',', ' ']) ++ b.toList =
        w.toList ++ ' ' :: (a.toList ++ ',' :: ([' '] ++ b.toList)) := by simp
    unfold instr?
    rw [hsplit, List.takeWhile_append_of_pos hw.noBlank, List.dropWhile_append_of_pos hw.noBlank,
      List.takeWhile_cons_of_neg (by decide), List.dropWhile_cons_of_neg (by decide),
      List.drop_succ_cons, List.drop_zero, hoperands, List.append_nil, String.ofList_toList]
    exact hread

/-- `Readable` for an instruction with one operand, by its mnemonic. -/
theorem readable_oneOperand {w a : String} {i : Instr} (hw : Mnemonic w.toList)
    (ha : Piece a.toList) (hread : unary? w a = some i) : Readable (w ++ " " ++ a).toList i := by
  have hparts : (w ++ " " ++ a).toList = w.toList ++ [' '] ++ a.toList := by simp
  have hoperands : operandTexts a.toList = [a] := by
    unfold operandTexts
    rw [if_neg ha.ne_nil,
      List.dropWhile_eq_nil_iff.mpr fun c hc => ne_comma_of_isInner (ha.inner c hc)]
    simp only [String.ofList_toList, Text.trim_of_solid ha.solid]
  rw [hparts]
  refine Readable.of_parts hw ha (List.forall_mem_singleton.mpr (by decide)) ?_
  rw [List.append_assoc, List.singleton_append]
  unfold instr?
  rw [List.takeWhile_append_of_pos hw.noBlank, List.dropWhile_append_of_pos hw.noBlank,
    List.takeWhile_cons_of_neg (by decide), List.dropWhile_cons_of_neg (by decide),
    List.drop_succ_cons, List.drop_zero, hoperands, List.append_nil, String.ofList_toList]
  exact hread

/-- `Piece` holds of the name of a numbered label, which is no directive. -/
theorem piece_label {l : Label} (h : l.IsNumbered) :
    Piece l.text.toList ∧ l.text.toList.head? ≠ some 'g' := by
  have hnumber : ∀ n : Nat, Piece (Text.natural n).toList := fun n => piece_decimal (.ofNat n)
  -- a word in front of a number, and a word or nothing behind it
  have hword : ∀ (w : String) (n : Nat), Piece w.toList → w.toList.head? ≠ some 'g' →
      Piece (w ++ Text.natural n).toList ∧ (w ++ Text.natural n).toList.head? ≠ some 'g' := by
    intro w n hw hg
    have hpiece := hw.append (hnumber n) (fun x hx => absurd hx (List.not_mem_nil))
    rw [List.append_nil, ← String.toList_append] at hpiece
    refine ⟨hpiece, ?_⟩
    rw [String.toList_append, List.head?_append_of_ne_nil _ hw.ne_nil]
    exact hg
  have hsuffix : ∀ (w : String) (n : Nat), Piece w.toList →
      Piece (printGroup n ++ w).toList ∧ (printGroup n ++ w).toList.head? ≠ some 'g' := by
    intro w n hw
    obtain ⟨hgroup, hg⟩ := hword "print" n (by decide) (by decide)
    have hpiece := hgroup.append hw (fun x hx => absurd hx (List.not_mem_nil))
    rw [List.append_nil, ← String.toList_append] at hpiece
    refine ⟨hpiece, ?_⟩
    rw [String.toList_append, printGroup, List.head?_append_of_ne_nil _ hgroup.ne_nil]
    exact hg
  cases l with
  | loop n => exact hword "loop" n (by decide) (by decide)
  | loopEnd n => exact hword "exit" n (by decide) (by decide)
  | printDigits n => exact hsuffix "_digits" n (by decide)
  | printNext n => exact hsuffix "_next" n (by decide)
  | printWrite n => exact hsuffix "_write" n (by decide)
  | named name => exact h.elim

theorem mnemonic_of_mem {w : String} (h : w ∈ ["mov", "lea", "add", "sub", "xor", "cmp", "test",
    "inc", "dec", "neg", "imul", "div", "push", "pop", "jmp", "jle", "jns", "jnz"]) :
    Mnemonic w.toList := by
  simp only [List.mem_cons, List.not_mem_nil, or_false] at h
  rcases h with rfl | rfl | rfl | rfl | rfl | rfl | rfl | rfl | rfl | rfl | rfl | rfl | rfl | rfl |
    rfl | rfl | rfl | rfl <;>
  exact ⟨by decide, List.all_eq_true.mp (by decide), by decide⟩

/-- `Readable` for an instruction on one known register. -/
theorem readable_register {w mark : String} {r : Register} {i : Instr} (h : r.IsKnown)
    (hw : Mnemonic w.toList) (hmark : mark = w ++ " ") (hread : unary? w r.text = some i) :
    Readable (mark ++ r.text).toList i := by
  rw [hmark]
  exact readable_oneOperand hw (piece_register h).1 hread

/-- `Readable` for every known instruction. -/
theorem readable_instr {i : Instr} (h : i.IsKnown) : Readable i.text.toList i.named := by
  cases i with
  | mov a b | add a b | sub a b | xor a b =>
    exact readable_twoOperands (mnemonic_of_mem (by decide)) (piece_operand h.1) (piece_operand h.2)
      (by simp [binary?, operand?_text h.1, operand?_text h.2, Instr.named])
  | lea target base offset =>
    have hmem : (Operand.mem base (some offset)).IsKnown := h.2
    exact readable_twoOperands (mnemonic_of_mem (by decide)) (piece_register h.1).1
      (piece_operand hmem)
      (by simp [binary?, operand?_text hmem, register?_text h.1, Instr.named])
  | cmp a b | test a b =>
    exact readable_twoOperands (mnemonic_of_mem (by decide)) (piece_register h.1).1
      (piece_register h.2).1
      (by simp [binary?, register?_text h.1, register?_text h.2, Instr.named])
  | inc r =>
    exact readable_register h (mnemonic_of_mem (by decide : "inc" ∈ _)) (by decide)
      (by simp [unary?, condition?, Condition.text, register?_text h, Instr.named])
  | dec r =>
    exact readable_register h (mnemonic_of_mem (by decide : "dec" ∈ _)) (by decide)
      (by simp [unary?, condition?, Condition.text, register?_text h, Instr.named])
  | neg r =>
    exact readable_register h (mnemonic_of_mem (by decide : "neg" ∈ _)) (by decide)
      (by simp [unary?, condition?, Condition.text, register?_text h, Instr.named])
  | imul r =>
    exact readable_register h (mnemonic_of_mem (by decide : "imul" ∈ _)) (by decide)
      (by simp [unary?, condition?, Condition.text, register?_text h, Instr.named])
  | div r =>
    exact readable_register h (mnemonic_of_mem (by decide : "div" ∈ _)) (by decide)
      (by simp [unary?, condition?, Condition.text, register?_text h, Instr.named])
  | push r =>
    exact readable_register h (mnemonic_of_mem (by decide : "push" ∈ _)) (by decide)
      (by simp [unary?, condition?, Condition.text, register?_text h, Instr.named])
  | pop r =>
    exact readable_register h (mnemonic_of_mem (by decide : "pop" ∈ _)) (by decide)
      (by simp [unary?, condition?, Condition.text, register?_text h, Instr.named])
  | jump condition target =>
    have hcondition : condition? condition.text = some condition := by cases condition <;> decide
    exact readable_oneOperand (mnemonic_of_mem (by cases condition <;> decide)) (piece_label h).1
      (by simp [unary?, hcondition, Instr.named])
  | syscall =>
    have hpiece : Piece "syscall".toList := by decide
    exact ⟨hpiece.solid, fun c hc => plain_of_isInner (hpiece.inner c hc), by decide, by decide⟩

/-! ## Lines -/

/-- `rowOf l`: the characters of a line without its end. -/
def rowOf (l : Line) : List Char :=
  List.replicate (indentWidth * l.level) ' ' ++ l.item.text.toList

theorem toList_text (l : Line) : l.text.toList = rowOf l ++ ['\n'] := by
  simp [Line.text, rowOf]

/-- `line?` reads indented code as the code is. -/
theorem line?_indented {n : Nat} {code : List Char} (hsolid : Text.Solid code)
    (hplain : ∀ c ∈ code, c ≠ ';') (hne : code ≠ []) (hdirective : code.head? ≠ some 'g') :
    line? (String.ofList (List.replicate n ' ' ++ code)) =
      if code.getLast? = some ':' then some [.label (.named (String.ofList code.dropLast))]
      else (instr? code).map fun i => [.instr i] := by
  have hblanks : ∀ c ∈ List.replicate n ' ', Text.isBlank c = true := by
    intro c hc
    rw [List.eq_of_mem_replicate hc]
    decide
  have hcode : ∀ c ∈ List.replicate n ' ' ++ code, (c != ';') = true := by
    intro c hc
    rcases List.mem_append.mp hc with hc | hc
    · rw [List.eq_of_mem_replicate hc]
      decide
    · simpa using hplain c hc
  have hglobal : ¬(code = [] ∨ "global ".toList.isPrefixOf code = true) := by
    rintro (h | h)
    · exact hne h
    · obtain ⟨rest, rfl⟩ := List.isPrefixOf_iff_prefix.mp h
      exact hdirective (by rw [List.head?_append]; rfl)
  unfold line?
  rw [String.toList_ofList, List.takeWhile_eq_self_iff.mpr hcode, Text.trim_blanks_append hblanks hsolid,
    String.toList_ofList, if_neg hglobal]

/-- `line?` reads back a known line, with its label or the target of its jump under the written name. -/
theorem line?_rowOf {l : Line} (h : l.item.IsKnown) :
    line? (String.ofList (rowOf l)) = some [l.item.named] := by
  obtain ⟨level, item⟩ := l
  cases item with
  | instr i =>
    have hread := readable_instr (h : i.IsKnown)
    have hcolon : i.text.toList.getLast? ≠ some ':' := fun hlast =>
      (hread.plain ':' (List.mem_of_getLast? hlast)).2.1 rfl
    show line? (String.ofList (List.replicate (indentWidth * level) ' ' ++ i.text.toList)) =
      some [.instr i.named]
    rw [line?_indented hread.solid (fun c hc => (hread.plain c hc).1) hread.noDirective.1
      hread.noDirective.2, if_neg hcolon, hread.read, Option.map_some]
  | label label =>
    obtain ⟨hpiece, hdirective⟩ := piece_label (h : label.IsNumbered)
    have hhead : (label.text.toList ++ [':']).head? = label.text.toList.head? :=
      List.head?_append_of_ne_nil _ hpiece.ne_nil
    have htext : (Item.label label).text.toList = label.text.toList ++ [':'] := by simp [Item.text]
    have hsolid : Text.Solid (label.text.toList ++ [':']) := by
      refine ⟨by rw [hhead]; exact hpiece.solid.1, ?_⟩
      rw [List.getLast?_concat]
      rintro c ⟨⟩
      decide
    have hsemicolon : ∀ c ∈ label.text.toList ++ [':'], c ≠ ';' := by
      intro c hc
      rcases List.mem_append.mp hc with hc | hc
      · exact (plain_of_isInner (hpiece.inner c hc)).1
      · rw [List.mem_singleton.mp hc]
        decide
    unfold rowOf
    rw [htext, line?_indented hsolid hsemicolon (by simp) (by rw [hhead]; exact hdirective),
      if_pos List.getLast?_concat, List.dropLast_concat, String.ofList_toList]
    rfl
  | comment text => exact h.elim
  | verbatim text => exact h.elim

/-- `rowOf` a known line has neither a semicolon nor a line break in it. -/
theorem plain_rowOf {l : Line} (h : l.item.IsKnown) :
    ∀ c ∈ rowOf l, c ≠ ';' ∧ Text.isLineBreak c = false := by
  obtain ⟨level, item⟩ := l
  intro c hc
  rcases List.mem_append.mp hc with hc | hc
  · rw [List.eq_of_mem_replicate hc]
    decide
  · cases item with
    | instr i =>
      obtain ⟨hsemicolon, -, hbreak⟩ := (readable_instr (h : i.IsKnown)).plain c hc
      exact ⟨hsemicolon, hbreak⟩
    | label label =>
      have htext : (Item.label label).text.toList = label.text.toList ++ [':'] := by simp [Item.text]
      rw [htext] at hc
      rcases List.mem_append.mp hc with hc | hc
      · obtain ⟨hsemicolon, -, hbreak⟩ :=
          plain_of_isInner ((piece_label (h : label.IsNumbered)).1.inner c hc)
        exact ⟨hsemicolon, hbreak⟩
      · rw [List.mem_singleton.mp hc]
        decide
    | comment text => exact h.elim
    | verbatim text => exact h.elim

/-- `line?` reads back known lines one by one. -/
theorem mapM_line?_rowOf {lines : List Line} (h : ∀ l ∈ lines, l.item.IsKnown) :
    (lines.map fun l => String.ofList (rowOf l)).mapM line? =
      some (lines.map fun l => [l.item.named]) := by
  induction lines with
  | nil => rfl
  | cons l rest ih =>
    rw [List.map_cons, List.mapM_cons, line?_rowOf (h l (by simp)),
      ih fun x hx => h x (by simp [hx])]
    rfl

end Reader

/-! ## The whole text -/

/-- `f.items`: the lines of a frame behind the label where the program starts. -/
def Frame.items (f : Frame) : List Item :=
  .label (.named "_start") :: f.lines.toList.map Line.item

/-- `labelNames` are kept by `Item.named`. -/
theorem labelNames_named (items : List Item) : labelNames (items.map Item.named) = labelNames items := by
  unfold labelNames
  rw [List.filterMap_map]
  congr 1
  funext item
  cases item <;> rfl

/-- `text` of a numbered label is not the name of the one where the program starts. -/
theorem Label.text_ne_start {l : Label} (h : l.IsNumbered) : l.text ≠ "_start" := by
  have hhead : ∀ (w : String) (rest : String), w.toList.head? ≠ some '_' → w ≠ "" →
      w ++ rest ≠ "_start" := by
    intro w rest hw hne heq
    have hlist : (w ++ rest).toList.head? = some '_' := by rw [heq]; decide
    have hnil : w.toList ≠ [] := by simpa using hne
    rw [String.toList_append, List.head?_append_of_ne_nil _ hnil] at hlist
    exact hw hlist
  cases l with
  | loop n => exact hhead "loop" _ (by decide) (by decide)
  | loopEnd n => exact hhead "exit" _ (by decide) (by decide)
  | printDigits n =>
    rw [Label.text, printGroup, String.append_assoc]
    exact hhead "print" _ (by decide) (by decide)
  | printNext n =>
    rw [Label.text, printGroup, String.append_assoc]
    exact hhead "print" _ (by decide) (by decide)
  | printWrite n =>
    rw [Label.text, printGroup, String.append_assoc]
    exact hhead "print" _ (by decide) (by decide)
  | named name => exact h.elim

/-- `labelNames` of known items do not have the name of the label where the program starts. -/
theorem start_not_mem {items : List Item} (h : ∀ item ∈ items, item.IsKnown) :
    "_start" ∉ labelNames items := by
  intro hmem
  obtain ⟨item, hitem, hname⟩ := List.mem_filterMap.mp hmem
  have hknown := h item hitem
  cases item with
  | label l => exact Label.text_ne_start hknown (Option.some.inj hname)
  | _ => cases hname

/-- `text` of a frame is its start and its lines, each ended by a line feed. -/
theorem Frame.toList_text (f : Frame) (hprologue : f.prologue = ZebLang.prologue) :
    f.text.toList = ("global _start".toList :: "_start:".toList ::
      f.lines.toList.map Reader.rowOf).flatMap fun row => row ++ ['\n'] := by
  have hhead : ZebLang.prologue.toList =
      ("global _start".toList ++ ['\n']) ++ ("_start:".toList ++ ['\n']) := by decide
  simp only [Frame.text, hprologue, String.toList_append, hhead, String.toList_join,
    List.flatMap_cons, List.flatMap_map, Reader.toList_text, List.append_assoc]

/-- `assemble` reads back the lines of a frame, if these are known and no two of their labels have one name.
    -/
theorem assemble_text {f : Frame} (hprologue : f.prologue = prologue)
    (hknown : ∀ l ∈ f.lines.toList, l.item.IsKnown)
    (hlabels : (labelNames (f.lines.toList.map Line.item)).Nodup) :
    assemble f.text = some (f.items.map Item.named) := by
  have hbreaks : ∀ row ∈ "global _start".toList :: "_start:".toList ::
      f.lines.toList.map Reader.rowOf, ∀ c ∈ row, Text.isLineBreak c = false := by
    intro row hrow
    rcases List.mem_cons.mp hrow with rfl | hrow
    · exact Text.eq_false_of_any rfl
    · rcases List.mem_cons.mp hrow with rfl | hrow
      · exact Text.eq_false_of_any rfl
      · obtain ⟨l, hl, rfl⟩ := List.mem_map.mp hrow
        exact fun c hc => (Reader.plain_rowOf (hknown l hl) c hc).2
  have hlines : Text.lines f.text = "global _start" :: "_start:" ::
      f.lines.toList.map fun l => String.ofList (Reader.rowOf l) := by
    unfold Text.lines
    rw [f.toList_text hprologue, Text.linesFrom_flatMap _ hbreaks]
    simp
  have hread : (Text.lines f.text).mapM Reader.line? =
      some ([] :: [.label (.named "_start")] :: f.lines.toList.map fun l => [l.item.named]) := by
    rw [hlines, List.mapM_cons, List.mapM_cons, Reader.mapM_line?_rowOf hknown,
      show Reader.line? "global _start" = some [] by decide,
      show Reader.line? "_start:" = some [.label (.named "_start")] by decide]
    rfl
  have hflat : ([] :: [.label (.named "_start")] :: f.lines.toList.map fun l => [l.item.named]).flatten
      = f.items.map Item.named := by
    rw [List.flatten_cons, List.flatten_cons, ← List.flatMap_def, ← List.map_eq_flatMap, Frame.items,
      List.map_cons, List.map_map]
    rfl
  have hnodup : (labelNames (f.items.map Item.named)).Nodup := by
    rw [labelNames_named]
    refine List.nodup_cons.mpr ⟨start_not_mem ?_, hlabels⟩
    rintro item hitem
    obtain ⟨l, hl, rfl⟩ := List.mem_map.mp hitem
    exact hknown l hl
  unfold assemble
  rw [hread]
  show (if (labelNames (List.flatten _)).Nodup then _ else _) = _
  rw [hflat, if_pos hnodup]
  rfl

end ZebLang
