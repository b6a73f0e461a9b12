/-
  Labels that are numbered anew.

  Code that is moved behind other code keeps its lines, but its loops and printing sequences are counted on
  from those of the code in front.  That is said twice: of lines, where a label is a constructor with a
  number (`Line.raised`), and of text, where it is a word that spells one (`raisedText`).

  The text is taken apart into its longest words.  A word that spells the label of a loop or of a printing
  sequence gets another number, and everything else stays.  For the text of known code the two agree
  (`raisedText_lines`): no mnemonic, register or number spells a label.
-/

import ZebLang.Proofs.Lowering.Labels
import ZebLang.Proofs.Token.Scanning

namespace ZebLang

/-! ## Lines -/

/-- `l.raised c`: the label with its number raised by the counter of its kind. -/
def Label.raised (c : Counters) : Label → Label
  | loop n => .loop (c.loops + n)
  | loopEnd n => .loopEnd (c.loops + n)
  | printDigits n => .printDigits (c.prints + n)
  | printNext n => .printNext (c.prints + n)
  | printWrite n => .printWrite (c.prints + n)
  | named name => .named name

def Instr.raised (c : Counters) : Instr → Instr
  | jump condition target => .jump condition (target.raised c)
  | i => i

def Item.raised (c : Counters) : Item → Item
  | instr i => .instr (i.raised c)
  | label l => .label (l.raised c)
  | item => item

def Line.raised (c : Counters) (l : Line) : Line := { l with item := l.item.raised c }

/-! ## Text -/

/-- `raise? c stem tail`: by how much the number between two parts of a word is raised, if the word is a
    label with a number: `loop0`, `exit0` or `print0_` with more behind it. -/
def raise? (c : Counters) (stem tail : List Char) : Option Nat :=
  if tail = [] ∧ (stem = "loop".toList ∨ stem = "exit".toList) then some c.loops
  else if stem = "print".toList ∧ tail.head? = some '_' then some c.prints
  else none

/-- `raisedWord c word`: the word, with another number if it is a label. -/
def raisedWord (c : Counters) (word : List Char) : List Char :=
  let stem := word.takeWhile (!·.isDigit)
  let behind := word.dropWhile (!·.isDigit)
  let digits := behind.takeWhile (·.isDigit)
  let tail := behind.dropWhile (·.isDigit)
  match raise? c stem tail with
  | some k => if digits = [] then word else stem ++ Nat.toDigits 10 (k + Text.ofDigits 10 digits) ++ tail
  | none => word

/-- `raisedFrom c before chars`: the rest of a text behind the start of a word, with other numbers in its
    labels. -/
def raisedFrom (c : Counters) : List Char → List Char → List Char
  | word, [] => raisedWord c word
  | word, x :: rest =>
      if isWordChar x then raisedFrom c (word ++ [x]) rest
      else raisedWord c word ++ x :: raisedFrom c [] rest

/-- `raisedText c text`: the text with other numbers in its labels. -/
def raisedText (c : Counters) (text : String) : String := String.ofList (raisedFrom c [] text.toList)

example : raisedText ⟨2, 5⟩ "    jle exit0\n    jns print1_digits\n    mov rax, 10\n" =
    "    jle exit2\n    jns print6_digits\n    mov rax, 10\n" := by decide

/-! ## Parts of a text -/

theorem apart_append {a b : List Char} (ha : Apart a) (hb : Apart b) : Apart (a ++ b) := by
  cases a with
  | nil => exact hb
  | cons x a => exact ha

/-- `Raises c chars chars'`: the words of `chars` are renumbered to those of `chars'`, whatever follows,
    unless it goes on with a word. -/
def Raises (c : Counters) (chars chars' : List Char) : Prop :=
  ∀ rest, Apart rest → raisedFrom c [] (chars ++ rest) = chars' ++ raisedFrom c [] rest

section Parts

variable {c : Counters}

/-- `raisedFrom` takes a word up to the next character that is in no word. -/
theorem raisedFrom_word {w rest : List Char} (hw : ∀ x ∈ w, isWordChar x = true) (hrest : Apart rest)
    (before : List Char) :
    raisedFrom c before (w ++ rest) = raisedWord c (before ++ w) ++ raisedFrom c [] rest := by
  induction w generalizing before with
  | nil =>
    rw [List.nil_append, List.append_nil]
    cases rest with
    | nil => exact (List.append_nil _).symm
    | cons x rest =>
      have hx : isWordChar x = false := hrest x rfl
      rw [raisedFrom, raisedFrom, if_neg (by simp [hx]), if_neg (by simp [hx])]
      rfl
  | cons x w ih =>
    rw [List.cons_append, raisedFrom, if_pos (hw x (by simp)), ih fun y hy => hw y (by simp [hy]),
      List.append_assoc, List.singleton_append]

/-- `Raises` for a single word, by `raisedWord`. -/
theorem raises_word {w : List Char} (hw : ∀ x ∈ w, isWordChar x = true) :
    Raises c w (raisedWord c w) :=
  fun _ hrest => raisedFrom_word hw hrest []

/-- `Raises` behind characters that are in no word. -/
theorem Raises.after {gap chars chars' : List Char} (hgap : ∀ x ∈ gap, isWordChar x = false)
    (h : Raises c chars chars') : Raises c (gap ++ chars) (gap ++ chars') := by
  intro rest hrest
  induction gap with
  | nil => exact h rest hrest
  | cons x gap ih =>
    have hx : isWordChar x = false := hgap x (by simp)
    rw [List.cons_append, List.cons_append, raisedFrom, if_neg (by simp [hx]),
      ih fun y hy => hgap y (by simp [hy])]
    rfl

/-- `Raises` leaves what stands between words. -/
theorem raises_gap {gap : List Char} (hgap : gap.any isWordChar = false) : Raises c gap gap := by
  have h := @Raises.after c gap [] [] (Text.eq_false_of_any hgap) fun _ _ => rfl
  rw [List.append_nil] at h
  exact h

/-- `Raises` for two parts, of which the second is `Apart`. -/
theorem Raises.append {a a' b b' : List Char} (ha : Raises c a a') (hb : Raises c b b')
    (hapart : Apart b) : Raises c (a ++ b) (a' ++ b') := by
  intro rest hrest
  rw [List.append_assoc, ha (b ++ rest) (apart_append hapart hrest), hb rest hrest, List.append_assoc]

/-! ## Code -/

/-- `Raises` leaves a word that spells no label. -/
theorem raises_plain {w : List Char} (hw : w.all isWordChar = true) (hplain : raisedWord c w = w) :
    Raises c w w := by
  have h := @raises_word c w (List.all_eq_true.mp hw)
  rw [hplain] at h
  exact h

/-- `Raises` leaves the registers. -/
theorem raises_register {r : Register} (h : r.IsKnown) : Raises c r.text.toList r.text.toList := by
  cases r with
  | named name => exact absurd h (by simp [Register.IsKnown, Register.known])
  | _ => exact raises_plain rfl rfl

/-- `Raises` leaves digits alone: they spell no label. -/
theorem raises_digits (n : Nat) : Raises c (Nat.toDigits 10 n) (Nat.toDigits 10 n) := by
  have hdigits := Text.isDigit_toDigits n
  refine raises_plain ?_ ?_
  · refine List.all_eq_true.mpr fun x hx => ?_
    exact Base.isWordChar_of_isDigit (show Base.isDigit .decimal x = true from hdigits x hx)
  · have hstem : (Nat.toDigits 10 n).takeWhile (!·.isDigit) = [] := by
      rw [List.takeWhile_eq_nil_iff]
      intro hlong
      simp [hdigits _ (List.getElem_mem hlong)]
    have hnone : ∀ tail, raise? c [] tail = none := by
      intro tail
      simp [raise?]
    unfold raisedWord
    simp only [hstem, hnone]

/-- `Raises` leaves the numbers. -/
theorem raises_decimal (n : Int) : Raises c (Text.decimal n).toList (Text.decimal n).toList := by
  rw [Text.toList_decimal]
  split
  · exact @Raises.after c ['-'] _ _ (List.forall_mem_singleton.mpr rfl) (raises_digits _)
  · exact raises_digits _

/-- `Raises` leaves the operands. -/
theorem raises_operand {o : Operand} (h : o.IsKnown) : Raises c o.text.toList o.text.toList := by
  have hclose : Raises c [']'] [']'] := raises_gap rfl
  cases o with
  | reg r => exact raises_register h
  | dl => exact raises_plain rfl rfl
  | imm value => exact raises_decimal value
  | mem base offset =>
    have hbase := @raises_register c base h
    cases offset with
    | none =>
      have hall := @Raises.after c ['['] _ _ (Text.eq_false_of_any rfl)
        (hbase.append hclose (apart_cons rfl _))
      simpa [Operand.text] using hall
    | some offset =>
      have hoffset := @Raises.after c [' ', '+', ' '] _ _ (Text.eq_false_of_any rfl)
        ((raises_decimal offset).append hclose (apart_cons rfl _))
      have hall := @Raises.after c ['['] _ _ (Text.eq_false_of_any rfl)
        (hbase.append hoffset (apart_cons rfl _))
      simpa [Operand.text] using hall
  | byteMem base =>
    have hword : Raises c "byte".toList "byte".toList := raises_plain rfl rfl
    have hinner := @Raises.after c [' ', '['] _ _ (Text.eq_false_of_any rfl)
      ((@raises_register c base h).append hclose (apart_cons rfl _))
    have hall := hword.append hinner (apart_cons rfl _)
    simpa [Operand.text] using hall

theorem raises_twoOperands {mnemonic a b : String} (hmnemonic : mnemonic.toList.all isWordChar = true)
    (hplain : raisedWord c mnemonic.toList = mnemonic.toList) (ha : Raises c a.toList a.toList)
    (hb : Raises c b.toList b.toList) :
    Raises c (twoOperands mnemonic a b).toList (twoOperands mnemonic a b).toList := by
  have hsecond := @Raises.after c [',', ' '] _ _ (Text.eq_false_of_any rfl) hb
  have hfirst := @Raises.after c [' '] _ _ (Text.eq_false_of_any rfl)
    (ha.append hsecond (apart_cons rfl _))
  have hall := (raises_plain hmnemonic hplain).append hfirst (apart_cons rfl _)
  simpa [twoOperands] using hall

/-- `Raises` for a mnemonic with the blank behind it, and what follows. -/
theorem raises_oneOperand {mnemonic a a' : String} (w : List Char)
    (hmnemonic : mnemonic.toList = w ++ [' ']) (hw : w.all isWordChar = true)
    (hplain : raisedWord c w = w) (ha : Raises c a.toList a'.toList) :
    Raises c (mnemonic ++ a).toList (mnemonic ++ a').toList := by
  have hoperand := @Raises.after c [' '] _ _ (Text.eq_false_of_any rfl) ha
  have hall := (raises_plain hw hplain).append hoperand (apart_cons rfl _)
  simpa [hmnemonic] using hall

/-- `raisedWord` of a stem, a number and a tail that `raise?` takes for a label. -/
theorem raisedWord_parts {stem tail : List Char} {k : Nat} (n : Nat)
    (hstem : ∀ x ∈ stem, x.isDigit = false) (htail : ∀ x ∈ tail, x.isDigit = false)
    (hraise : raise? c stem tail = some k) :
    raisedWord c (stem ++ (Nat.toDigits 10 n ++ tail)) = stem ++ (Nat.toDigits 10 (k + n) ++ tail) := by
  have hdigits := Text.isDigit_toDigits n
  have hstem' : ∀ x ∈ stem, (!x.isDigit) = true := fun x hx => by rw [hstem x hx]; rfl
  have htail' : ∀ x ∈ tail.head?, x.isDigit = false := fun x hx => htail x (List.mem_of_mem_head? hx)
  have hfirst : ∀ x ∈ (Nat.toDigits 10 n ++ tail).head?, (!x.isDigit) = false := by
    rw [List.head?_append_of_ne_nil _ Nat.toDigits_ne_nil]
    intro x hx
    rw [hdigits x (List.mem_of_mem_head? hx)]
    rfl
  unfold raisedWord
  simp only [Text.takeWhile_run hstem' hfirst, Text.dropWhile_run hstem' hfirst,
    Text.takeWhile_run hdigits htail', Text.dropWhile_run hdigits htail', hraise,
    if_neg Nat.toDigits_ne_nil, Text.ofDigits_toDigits, List.append_assoc]

/-- `raised` keeps `IsNumbered`. -/
theorem Label.raised_isNumbered {l : Label} (h : l.IsNumbered) : (l.raised c).IsNumbered := by
  cases l with
  | named name => exact h.elim
  | _ => exact trivial

/-- `Raises` takes the text of a label to that of the raised one. -/
theorem raises_label {l : Label} (h : l.IsNumbered) :
    Raises c l.text.toList (l.raised c).text.toList := by
  obtain ⟨hstem, htail⟩ := Label.isDigit_parts h
  have hword : ∀ x ∈ l.text.toList, isWordChar x = true := by
    have hparts : l.parts.1.toList.all isWordChar = true ∧ l.parts.2.2.toList.all isWordChar = true := by
      cases l with
      | named name => exact h.elim
      | _ =>
        simp only [Label.parts]
        exact ⟨rfl, rfl⟩
    rw [Label.toList_text h]
    intro x hx
    rcases List.mem_append.mp hx with hx | hx
    · exact List.all_eq_true.mp hparts.1 x hx
    · rcases List.mem_append.mp hx with hx | hx
      · exact Base.isWordChar_of_isDigit (show Base.isDigit .decimal x = true from
          Text.isDigit_toDigits _ x hx)
      · exact List.all_eq_true.mp hparts.2 x hx
  have hraised : raisedWord c l.text.toList = (l.raised c).text.toList := by
    rw [Label.toList_text h, Label.toList_text (Label.raised_isNumbered h)]
    cases l with
    | named name => exact h.elim
    | _ =>
      refine raisedWord_parts _ hstem htail ?_
      simp only [Label.parts]
      rfl
  rw [← hraised]
  exact raises_word hword

/-- `Raises` takes the text of an instruction to that of the raised one. -/
theorem raises_instr {i : Instr} (h : i.IsKnown) :
    Raises c i.text.toList (i.raised c).text.toList := by
  cases i with
  | mov a b | add a b | sub a b | xor a b =>
    exact raises_twoOperands rfl rfl (raises_operand h.1) (raises_operand h.2)
  | lea a b offset =>
    exact raises_twoOperands rfl rfl (raises_register h.1)
      (raises_operand (show (Operand.mem b (some offset)).IsKnown from h.2))
  | cmp a b | test a b =>
    exact raises_twoOperands rfl rfl (raises_register h.1) (raises_register h.2)
  | inc r => exact raises_oneOperand "inc".toList rfl rfl rfl (raises_register h)
  | dec r => exact raises_oneOperand "dec".toList rfl rfl rfl (raises_register h)
  | neg r => exact raises_oneOperand "neg".toList rfl rfl rfl (raises_register h)
  | imul r => exact raises_oneOperand "imul".toList rfl rfl rfl (raises_register h)
  | div r => exact raises_oneOperand "div".toList rfl rfl rfl (raises_register h)
  | push r => exact raises_oneOperand "push".toList rfl rfl rfl (raises_register h)
  | pop r => exact raises_oneOperand "pop".toList rfl rfl rfl (raises_register h)
  | jump condition target =>
    cases condition with
    | _ => exact raises_oneOperand _ String.toList_append rfl rfl (raises_label h)
  | syscall => exact raises_plain rfl rfl

/-- `Raises` takes the text of an item to that of the raised one. -/
theorem raises_item {item : Item} (h : item.IsKnown) :
    Raises c item.text.toList (item.raised c).text.toList := by
  cases item with
  | instr i => exact raises_instr h
  | label l =>
    have hall := (@raises_label c l h).append (@raises_gap c [':'] rfl) (apart_cons rfl _)
    simpa [Item.text, Item.raised] using hall
  | comment text => exact h.elim
  | verbatim text => exact h.elim

/-- `raisedFrom` on a line, which ends with a line feed, so that the next one starts anew. -/
theorem raisedFrom_line {l : Line} (h : l.item.IsKnown) (rest : List Char) :
    raisedFrom c [] (l.text.toList ++ rest) = (l.raised c).text.toList ++ raisedFrom c [] rest := by
  have hindent : ∀ x ∈ List.replicate (indentWidth * l.level) ' ', isWordChar x = false := by
    intro x hx
    rw [List.eq_of_mem_replicate hx]
    rfl
  have htext : ∀ item : Item, (Line.mk l.level item).text.toList =
      List.replicate (indentWidth * l.level) ' ' ++ item.text.toList ++ ['\n'] := by
    intro item
    simp [Line.text]
  have hitem := (@raises_item c l.item h).after hindent
  have hfeed := hitem ('\n' :: rest) (apart_cons rfl rest)
  rw [raisedFrom, if_neg (by decide)] at hfeed
  show raisedFrom c [] ((Line.mk l.level l.item).text.toList ++ rest) =
    (Line.mk l.level (l.item.raised c)).text.toList ++ _
  rw [htext, htext, List.append_assoc, List.append_assoc _ ['\n']]
  exact hfeed

/-- `raisedText` of known lines is the text of the raised lines. -/
theorem raisedText_lines {lines : List Line} (h : ∀ l ∈ lines, l.item.IsKnown) :
    raisedText c (String.join (lines.map Line.text)) =
      String.join ((lines.map (Line.raised c)).map Line.text) := by
  apply String.toList_inj.mp
  rw [raisedText, String.toList_ofList, String.toList_join, String.toList_join]
  induction lines with
  | nil => rfl
  | cons l rest ih =>
    rw [List.map_cons, List.map_cons, List.map_cons, List.flatMap_cons, List.flatMap_cons,
      raisedFrom_line (h l (by simp)), ih fun x hx => h x (by simp [hx])]

end Parts

end ZebLang
