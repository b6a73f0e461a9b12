/-
  What stands on the lines of assembly.

  With comments on, the text of each statement is put behind a semicolon, with the names in it as they are.  A
  name is any text that is not empty, so it may have line feeds in it, and the rest of the statement is then
  code for an assembler.  What the lines of an accepted program can be (`rows_of_lower`):

  1. Code is written by lowering alone: a fixed instruction, one with a number, an offset or a label filled in,
     or a label (`IsCode`).  No name gets into it (`LowersAll.isCode`).
  2. A comment has one row for each row of the statement.  The first is a comment; the others are whatever the
     statement has there.  No other rows are foreign.
  3. Only names that are bound can bring in line feeds: names that are read are bound, functions and operators
     are known ones (`LowersAll.not_mem_texts`).  Without line feeds in them no row is foreign.
  4. With them any row can be had (`exists_lower_of_row`).
-/

import Mathlib.Algebra.Group.Int.Defs
import ZebLang.Proofs.Lowering.Bindings
import ZebLang.Proofs.Transparency

namespace ZebLang

/-! ## Code -/

/-- The instructions that are always written the same. -/
def fixedInstructions : List String :=
  ["push rax", "push rbx", "pop rax", "pop rbx", "pop rdi", "add rax, rbx", "sub rax, rbx", "imul rbx",
    "mov rbx, 0", "mov [rsp], rbx", "inc rbx", "cmp rax, rbx",
    "mov rax, [rsp]", "sub rsp, 32", "lea rsi, [rsp + 32]", "dec rsi", "mov byte [rsi], 10", "mov r8, rax",
    "test rax, rax", "neg rax", "mov rcx, 10", "xor rdx, rdx", "div rcx", "add dl, 48", "mov [rsi], dl",
    "test r8, r8", "mov byte [rsi], 45", "mov rax, 1", "mov rdi, 1", "lea rdx, [rsp + 32]", "sub rdx, rsi",
    "add rsp, 32", "mov rax, 60", "syscall"]

/-- `IsCode c text`: code without indentation, after so many loops and printing sequences.  It is a fixed
    instruction; one with a number of sixty-four bits, the offset of a slot or a label that was handed out;
    or such a label. -/
inductive IsCode (c : Counters) : String → Prop where
  | fixed {text : String} (h : text ∈ fixedInstructions) : IsCode c text
  | number {n : Int} (hmin : -2 ^ 63 ≤ n) (hmax : n < 2 ^ 63) : IsCode c ("mov rax, " ++ Text.decimal n)
  | offset (slots : Nat) : IsCode c ("mov rax, [rsp + " ++ Text.natural (8 * slots) ++ "]")
  | jump {mnemonic : String} {l : Label} (h : mnemonic ∈ ["jmp", "jle", "jns", "jnz"])
      (hl : l.IsBetween ⟨0, 0⟩ c) : IsCode c (mnemonic ++ " " ++ l.text)
  | label {l : Label} (hl : l.IsBetween ⟨0, 0⟩ c) : IsCode c (l.text ++ ":")

/-- `unindented row`: the row without the blanks in front. -/
def unindented (row : List Char) : List Char := row.dropWhile fun c => c == ' ' || c == '\t'

/-- `IsHarmless c row`: the row starts with a semicolon or `IsCode`. -/
def IsHarmless (c : Counters) (row : List Char) : Prop :=
  (unindented row).head? = some ';' ∨ ∃ text, IsCode c text ∧ unindented row = text.toList

namespace IsCode

variable {c c' : Counters} {text : String}

/-- `IsCode` is monotone in the counters. -/
theorem mono (h : IsCode c text) (hloops : c.loops ≤ c'.loops) (hprints : c.prints ≤ c'.prints) :
    IsCode c' text := by
  have hmore : ∀ {l : Label}, l.IsBetween ⟨0, 0⟩ c → l.IsBetween ⟨0, 0⟩ c' :=
    fun hl => hl.mono (Nat.le_refl _) (Nat.le_refl _) hloops hprints
  cases h with
  | fixed h => exact .fixed h
  | number hmin hmax => exact .number hmin hmax
  | offset slots => exact .offset slots
  | jump h hl => exact .jump h (hmore hl)
  | label hl => exact .label (hmore hl)

/-- `opens text`: the text starts with a letter that code can start with. -/
def opens (text : String) : Bool := text.toList.head?.any fun first => "acdeijlmnpstx".toList.contains first

theorem opens_append {front : String} (h : opens front = true) (back : String) :
    opens (front ++ back) = true := by
  unfold opens at *
  rw [String.toList_append]
  cases hfront : front.toList with
  | nil => rw [hfront] at h; cases h
  | cons first rest => rw [hfront] at h; exact h

theorem opens_label {l : Label} (h : l.IsBetween c c') : opens l.text = true := by
  cases l with
  | loop n => exact opens_append (by decide) _
  | loopEnd n => exact opens_append (by decide) _
  | printDigits n => exact opens_append (opens_append (by decide) _) _
  | printNext n => exact opens_append (opens_append (by decide) _) _
  | printWrite n => exact opens_append (opens_append (by decide) _) _
  | named name => exact h.elim

/-- `opens` holds of all code. -/
theorem opens_eq_true (h : IsCode c text) : opens text = true := by
  cases h with
  | fixed h =>
    have hall : fixedInstructions.all opens = true := by decide
    exact List.all_eq_true.mp hall text h
  | number hmin hmax => exact opens_append (by decide) _
  | offset slots => exact opens_append (opens_append (by decide) _) _
  | @jump mnemonic l h hl =>
    have hall : ["jmp", "jle", "jns", "jnz"].all opens = true := by decide
    exact opens_append (opens_append (List.all_eq_true.mp hall mnemonic h) _) _
  | label hl => exact opens_append (opens_label hl) _

/-- `IsCode` at a level of indentation `IsHarmless`. -/
theorem isHarmless {l : Line} (h : IsCode c l.item.text) : IsHarmless c (Reader.rowOf l) := by
  refine .inr ⟨_, h, Text.dropWhile_run ?_ ?_⟩
  · intro x hx
    rw [List.eq_of_mem_replicate hx]
    rfl
  · intro first hfirst
    have hopens := h.opens_eq_true
    unfold opens at hopens
    rw [Option.mem_def.mp hfirst] at hopens
    by_contra hblank
    rw [Bool.not_eq_false, Bool.or_eq_true, beq_iff_eq, beq_iff_eq] at hblank
    rcases hblank with rfl | rfl
    · exact absurd hopens (by decide)
    · exact absurd hopens (by decide)

end IsCode

/-! ## The code of programs -/

/-- `mentioned?`: the label that an item puts down or jumps to. -/
def Item.mentioned? : Item → Option Label
  | .label l | .instr (.jump _ l) => some l
  | _ => none

section Items

variable {c : Counters}

/-- `IsCode` for an item whose label was handed out. -/
theorem isCode_of_mentioned {item : Item} {l : Label} (h : item.mentioned? = some l)
    (hl : l.IsBetween ⟨0, 0⟩ c) : IsCode c item.text := by
  cases item with
  | label _ =>
    cases h
    exact .label hl
  | instr i =>
    cases i with
    | jump condition _ =>
      cases h
      exact .jump (by cases condition <;> decide) hl
    | _ => cases h
  | comment _ => cases h
  | verbatim _ => cases h

/-- `IsCode` for items that are fixed or mention a label that was handed out. -/
theorem isCode_of_items {code : List Item}
    (hfixed : ∀ item ∈ code.filter (·.mentioned?.isNone), item.text ∈ fixedInstructions)
    (hlabels : ∀ l ∈ code.filterMap Item.mentioned?, l.IsBetween ⟨0, 0⟩ c) :
    ∀ item ∈ code, IsCode c item.text := by
  intro item hitem
  cases hmentioned : item.mentioned? with
  | none => exact .fixed (hfixed item (List.mem_filter.mpr ⟨hitem, by rw [hmentioned]; rfl⟩))
  | some l => exact isCode_of_mentioned hmentioned (hlabels l (List.mem_filterMap.mpr ⟨item, hitem, hmentioned⟩))

theorem isCode_print {n : Nat} (h : n < c.prints) : ∀ item ∈ printItems n, IsCode c item.text := by
  apply isCode_of_items
  · show ∀ item ∈ (printItems 0).filter (·.mentioned?.isNone), item.text ∈ fixedInstructions
    decide +kernel
  · have hlabels : (printItems n).filterMap Item.mentioned? = [.printDigits n, .printDigits n, .printNext n,
        .printNext n, .printWrite n, .printWrite n] := rfl
    simp [hlabels, Label.IsBetween, h]

theorem isCode_range {n : Nat} (h : n < c.loops) : ∀ item ∈ rangeItems n, IsCode c item.text := by
  apply isCode_of_items
  · show ∀ item ∈ (rangeItems 0).filter (·.mentioned?.isNone), item.text ∈ fixedInstructions
    decide +kernel
  · have hlabels : (rangeItems n).filterMap Item.mentioned? = [.loop n, .loopEnd n, .loop n, .loopEnd n] := rfl
    simp [hlabels, Label.IsBetween, h]

theorem isCode_exit : ∀ item ∈ exitItems, IsCode c item.text :=
  isCode_of_items (by decide +kernel) (List.forall_mem_nil _)

/-- `IsCode` for the code of an operator. -/
theorem isCode_operator {operator : String} {combine : Instr}
    (h : Lowering.arithmetic? operator = some combine) :
    ∀ item ∈ [Item.instr (.pop .rbx), .instr (.pop .rax), .instr combine, .instr (.push .rax)],
      IsCode c item.text := by
  rcases Lowering.arithmetic_cases h with ⟨-, rfl⟩ | ⟨-, rfl⟩ | ⟨-, rfl⟩
  all_goals exact isCode_of_items (by decide +kernel) (List.forall_mem_nil _)

/-- `IsCode` for the code of a literal in its range. -/
theorem isCode_literal {n : Int} (hmin : Cause.literalMin ≤ n) (hmax : n ≤ Cause.literalMax) :
    ∀ item ∈ [Item.instr (.mov (.reg .rax) (.imm n)), .instr (.push .rax)], IsCode c item.text := by
  have hnumber : IsCode c ("mov rax, " ++ Text.decimal n) := by
    unfold Cause.literalMin at hmin
    unfold Cause.literalMax at hmax
    exact .number (by omega) (by omega)
  exact List.forall_mem_cons.mpr ⟨hnumber, List.forall_mem_singleton.mpr (.fixed (by decide +kernel))⟩

/-- `IsCode` for the code of a reference to a slot below the top. -/
theorem isCode_reference {depth slot : Nat} (h : slot < depth) :
    ∀ item ∈ [Item.instr (.mov (.reg .rax) (.mem .rsp (some (((depth : Int) - slot - 1) * slotSize)))),
      .instr (.push .rax)], IsCode c item.text := by
  obtain ⟨above, rfl⟩ := Nat.exists_eq_add_of_lt h
  have hoffset : ((slot + above + 1 : Nat) - slot - 1) * slotSize = ((8 * above : Nat) : Int) := by
    unfold slotSize
    omega
  rw [hoffset]
  exact List.forall_mem_cons.mpr ⟨.offset above, List.forall_mem_singleton.mpr (.fixed (by decide +kernel))⟩

end Items

section Slots

variable {slots : List (String × Nat)} {depth : Nat} {c c' : Counters} {code : List Item}

/-- `bindSlot` keeps what holds of the names that are bound so far and of the new one. -/
theorem forall_bindSlot {P : String → Nat → Prop} {name : String} {slot : Nat}
    (h : ∀ x s, slots.lookup x = some s → P x s) (hnew : P name slot) :
    ∀ x s, (bindSlot slots name slot).lookup x = some s → P x s := by
  intro x s hx
  by_cases hname : x = name
  · subst hname
    have hslot : (bindSlot slots x slot).lookup x = some slot := Frame.slot?_bind_self { slots } x slot
    cases hx.symm.trans hslot
    exact hnew
  · apply h
    rw [← hx]
    exact (Frame.slot?_bind_of_ne { slots } slot hname).symm

/-- `Lowers` gives code only. -/
theorem Lowers.isCode {d : Datum} (h : Lowers slots depth d c code c')
    (hslots : ∀ x slot, slots.lookup x = some slot → slot < depth) :
    ∀ item ∈ code, IsCode c' item.text := by
  induction h with
  | literal hmin hmax => exact isCode_literal hmin hmax
  | reference hslot => exact isCode_reference (hslots _ _ hslot)
  | binary hleft hright hoperator ihleft ihright =>
    have hdeeper := ihright fun x slot hx => Nat.lt_succ_of_lt (hslots x slot hx)
    refine List.forall_mem_append.mpr ⟨fun item hitem => ?_, ?_⟩
    · exact (ihleft hslots item hitem).mono hright.fresh.loops hright.fresh.prints
    · exact List.forall_mem_append.mpr ⟨hdeeper, isCode_operator hoperator⟩
  | print hargument ih =>
    refine List.forall_mem_append.mpr ⟨fun item hitem => ?_, isCode_print (Nat.lt_succ_self _)⟩
    exact (ih hslots item hitem).mono (Nat.le_refl _) (Nat.le_succ _)
  | range hargument ih =>
    refine List.forall_mem_append.mpr ⟨fun item hitem => ?_, isCode_range (Nat.lt_succ_self _)⟩
    exact (ih hslots item hitem).mono (Nat.le_succ _) (Nat.le_refl _)

/-- `LowersAll` gives code only. -/
theorem LowersAll.isCode {statements : List Datum} (h : LowersAll slots depth statements c code c')
    (hslots : ∀ x slot, slots.lookup x = some slot → slot < depth) :
    ∀ item ∈ code, IsCode c' item.text := by
  induction h with
  | nil => exact List.forall_mem_nil _
  | exit hvalue hrest ih =>
    refine List.forall_mem_append.mpr ⟨fun item hitem => ?_, ?_⟩
    · exact (hvalue.isCode hslots item hitem).mono hrest.fresh.loops hrest.fresh.prints
    · exact List.forall_mem_append.mpr ⟨isCode_exit, ih hslots⟩
  | @bind slots depth d name e rest c c₁ c₂ code₁ code₂ hbinds hvalue hrest ih =>
    refine List.forall_mem_append.mpr ⟨fun item hitem => ?_, ih ?_⟩
    · exact (hvalue.isCode hslots item hitem).mono hrest.fresh.loops hrest.fresh.prints
    · exact forall_bindSlot (fun x slot hx => Nat.lt_succ_of_lt (hslots x slot hx)) (Nat.lt_succ_self depth)

/-! ## Line feeds in statements -/

/-- `expressionText` of a call has no line feed if neither the name nor the argument has one. -/
theorem Datum.not_mem_callText {tag : Tag Datum} {name : String} {argument : Datum} (hname : '\n' ∉ name.toList)
    (hargument : ∀ {text}, argument.expressionText = .ok text → '\n' ∉ text.toList) :
    ∀ {text}, (Datum.call tag (.text name) argument).expressionText = .ok text → '\n' ∉ text.toList := by
  intro text htext
  rw [Datum.expressionText] at htext
  obtain ⟨n, hn, htext⟩ := exists_ok_of_bind htext
  obtain ⟨a, ha, htext⟩ := exists_ok_of_bind htext
  cases hn
  cases htext
  simp [hname, hargument ha]

/-- `expressionText` has no line feed if the names have none. -/
theorem Lowers.not_mem_text {d : Datum} (h : Lowers slots depth d c code c')
    (hslots : ∀ x slot, slots.lookup x = some slot → '\n' ∉ x.toList) :
    ∀ {text}, d.expressionText = .ok text → '\n' ∉ text.toList := by
  induction h with
  | @literal depth tag n c hmin hmax =>
    intro text htext
    have hwritten : (Datum.literal tag (.int n)).expressionText = .ok (Text.decimal n) :=
      writeInt_of_fits hmin hmax
    cases hwritten.symm.trans htext
    exact not_mem_decimal n
  | reference hslot =>
    intro text htext
    cases htext
    exact hslots _ _ hslot
  | @binary depth tag left operator right combine c c₁ c₂ code₁ code₂ hleft hright hoperator ihleft ihright =>
    intro text htext
    rw [Datum.expressionText] at htext
    obtain ⟨l, hl, htext⟩ := exists_ok_of_bind htext
    obtain ⟨o, ho, htext⟩ := exists_ok_of_bind htext
    obtain ⟨r, hr, htext⟩ := exists_ok_of_bind htext
    cases ho
    cases htext
    have hsign : '\n' ∉ operator.toList := by
      rcases Lowering.arithmetic_cases hoperator with ⟨rfl, -⟩ | ⟨rfl, -⟩ | ⟨rfl, -⟩
      all_goals decide
    simp [ihleft hl, ihright hr, hsign]
  | print hargument ih => exact Datum.not_mem_callText (by decide) ih
  | range hargument ih => exact Datum.not_mem_callText (by decide) ih

/-- `statementText` has no line feed if the bound name and the value have none. -/
theorem Binds.not_mem_text {d e : Datum} {name text : String} (h : Binds d name e)
    (hname : '\n' ∉ name.toList) (hvalue : ∀ {text}, e.expressionText = .ok text → '\n' ∉ text.toList)
    (htext : d.statementText = .ok text) : '\n' ∉ text.toList := by
  cases h with
  | assign =>
    obtain ⟨n, hn, htext⟩ := exists_ok_of_bind htext
    obtain ⟨value, hvalue', htext⟩ := exists_ok_of_bind htext
    cases hn
    cases htext
    simp [hname, hvalue hvalue']
  | loop =>
    obtain ⟨n, hn, htext⟩ := exists_ok_of_bind htext
    obtain ⟨value, hvalue', htext⟩ := exists_ok_of_bind htext
    cases hn
    cases htext
    simp [hname, hvalue hvalue']

/-- `statementText` has no line feed for statements of which none binds a name with one. -/
theorem LowersAll.not_mem_texts {statements : List Datum} (h : LowersAll slots depth statements c code c')
    (hstandard : ∀ d ∈ statements, d.isStandard = true)
    (hslots : ∀ x slot, slots.lookup x = some slot → '\n' ∉ x.toList)
    (hnames : ∀ d ∈ statements, ∀ name ∈ d.newName?, '\n' ∉ name.toList) :
    ∀ {texts}, statements.mapM Datum.statementText = .ok texts → ∀ text ∈ texts, '\n' ∉ text.toList := by
  induction h with
  | nil =>
    intro texts htexts
    cases htexts
    exact List.forall_mem_nil _
  | @exit slots depth tag e rest c c₁ c₂ code₁ code₂ hvalue hrest ih =>
    intro texts htexts
    rw [List.mapM_cons] at htexts
    obtain ⟨text, htext, htexts⟩ := exists_ok_of_bind htexts
    obtain ⟨more, hmore, htexts⟩ := exists_ok_of_bind htexts
    cases htexts
    obtain ⟨value, hvalue', htext⟩ := exists_ok_of_bind htext
    cases htext
    refine List.forall_mem_cons.mpr ⟨?_, ih ?_ hslots (fun d hd => hnames d (List.mem_cons_of_mem _ hd)) hmore⟩
    · simp [hvalue.not_mem_text hslots hvalue']
    · exact fun d hd => hstandard d (List.mem_cons_of_mem _ hd)
  | @bind slots depth d name e rest c c₁ c₂ code₁ code₂ hbinds hvalue hrest ih =>
    intro texts htexts
    rw [List.mapM_cons] at htexts
    obtain ⟨text, htext, htexts⟩ := exists_ok_of_bind htexts
    obtain ⟨more, hmore, htexts⟩ := exists_ok_of_bind htexts
    cases htexts
    have hplain := Lowering.isPlain_of_isStandard (hstandard d List.mem_cons_self)
    have hname : '\n' ∉ name.toList := hnames d List.mem_cons_self name (hbinds.newName hplain)
    refine List.forall_mem_cons.mpr ⟨?_, ih ?_ ?_ (fun d hd => hnames d (List.mem_cons_of_mem _ hd)) hmore⟩
    · exact hbinds.not_mem_text hname (hvalue.not_mem_text hslots) htext
    · exact fun d hd => hstandard d (List.mem_cons_of_mem _ hd)
    · exact forall_bindSlot hslots hname

end Slots

/-! ## The rows of a program -/

/-- `lowerAll` with comments shows every statement that it accepts. -/
theorem Lowering.exists_texts_of_lowerAll {statements : List Datum} {f g : Frame} {u : Unit}
    (h : (lowerAll true statements).run f = .ok u g) :
    ∃ texts, statements.mapM Datum.statementText = .ok texts := by
  induction statements generalizing f with
  | nil => exact ⟨[], rfl⟩
  | cons d rest ih =>
    obtain ⟨u₁, f₁, helement, hrest⟩ := bind_eq_ok h
    obtain ⟨texts, htexts⟩ := ih hrest
    unfold lowerElement at helement
    dsimp only at helement
    split at helement
    · cases helement
    · obtain ⟨bound, f₂, hcheck, hbody⟩ := bind_eq_ok helement
      cases htext : d.statementText with
      | ok text => exact ⟨text :: texts, mapM_cons_ok htext htexts⟩
      | error fault =>
        rw [htext] at hbody
        cases hbody

/-- `rows` of a comment are those of its text, the first of them behind a semicolon. -/
theorem rows_comment (text : String) :
    ∃ first, Text.rows (Reader.rowOf ⟨1, .comment text⟩) =
      ("    ; ".toList ++ first) :: (Text.rows text.toList).tail := by
  rw [rowOf_comment, Text.rows_append_of_not_mem (by decide)]
  cases hrows : Text.rows text.toList with
  | nil => exact absurd hrows (List.splitOnP_ne_nil _ _)
  | cons first rest => exact ⟨first, rfl⟩

/-- `bindingOf name`: a statement that binds a name, as a tree. -/
def bindingOf (name : String) : Datum := .assign {} (.text name) (.literal {} (.int 1))

/-- `bindingOf` a name that is not empty is accepted, and the name stands in the comment as it is. -/
theorem lower_bindingOf {name : String} (h : name.isEmpty = false) :
    ∃ f, (Lowering.lowerAll true [bindingOf name]).run {} = .ok () f ∧ f.prologue = prologue ∧
      ⟨1, .comment (name ++ " = " ++ "1")⟩ ∈ f.lines.toList := by
  have hbound : Lowering.boundName? (bindingOf name) = .ok (some name) := by
    unfold Lowering.boundName? bindingOf Lowering.nameOf
    simp only [h]
    rfl
  have hwritten : (bindingOf name).statementText = .ok (name ++ " = " ++ "1") := rfl
  unfold Lowering.lowerAll Lowering.lowerElement
  rw [hbound, hwritten]
  exact ⟨_, rfl, rfl, List.mem_cons_self⟩

/-- `lower` can be made to write any row: a name with the row between two line feeds puts it into the text.
    -/
theorem exists_lower_of_row {row : List Char} (h : '\n' ∉ row) :
    ∃ statements text, (∀ d ∈ statements, d.isStandard = true) ∧ (lower true statements).text = .ok text ∧
      row ∈ Text.rows text.toList := by
  let name := "x\n" ++ String.ofList row ++ "\n;"
  have hname : name.toList = 'x' :: '\n' :: (row ++ ['\n', ';']) := by simp [name]
  have hne : name.isEmpty = false := by
    apply Bool.eq_false_iff.mpr
    intro hempty
    rw [String.isEmpty_iff.mp hempty] at hname
    cases hname
  obtain ⟨f, hrun, hprologue, hcomment⟩ := lower_bindingOf hne
  refine ⟨[bindingOf name], f.text, List.forall_mem_singleton.mpr rfl, ?_, ?_⟩
  · rw [lower_of_ok hrun]
    rfl
  · have hshown : (name ++ " = " ++ "1").toList = ['x'] ++ '\n' :: (row ++ '\n' :: "; = 1".toList) := by
      simp [hname]
    obtain ⟨first, hrows⟩ := rows_comment (name ++ " = " ++ "1")
    have hbehind : row ∈ (Text.rows (name ++ " = " ++ "1").toList).tail := by
      rw [hshown, Text.rows_append_lineFeed, Text.rows_append_lineFeed, Text.rows_of_not_mem h]
      simp [Text.rows_of_not_mem]
    rw [Frame.rows_text_flatMap hprologue]
    apply List.mem_append_left
    apply List.mem_append_right
    refine List.mem_flatMap.mpr ⟨_, hcomment, ?_⟩
    rw [hrows]
    exact List.mem_cons_of_mem _ hbehind

/-- What stands on the lines of an accepted program with comments.  Behind the start of the text, a row is a
    comment or code of lowering, or else it is a row of the text of a statement, but not the first one; and all
    such rows stand there.  If no name that is bound has a line feed in it, there are none. -/
theorem rows_of_lower {statements : List Datum} {text : String}
    (hstandard : ∀ d ∈ statements, d.isStandard = true) (h : (lower true statements).text = .ok text) :
    ∃ shown body, statements.mapM Datum.statementText = .ok shown ∧
      Text.rows text.toList = ["global _start".toList, "_start:".toList] ++ body ++ [[]] ∧
      (∀ row ∈ body, IsHarmless (lower true statements).frame.counters row ∨
        ∃ s ∈ shown, row ∈ (Text.rows s.toList).tail) ∧
      (∀ s ∈ shown, ∀ row ∈ (Text.rows s.toList).tail, row ∈ body) ∧
      ((∀ d ∈ statements, ∀ name ∈ d.newName?, '\n' ∉ name.toList) →
        ∀ row ∈ body, IsHarmless (lower true statements).frame.counters row) := by
  obtain ⟨f, hrun, rfl⟩ := exists_run_of_text h
  obtain ⟨shown, hshown⟩ := Lowering.exists_texts_of_lowerAll hrun
  have hagree := @Lowering.alike_all [] _ _ hshown {} {} ⟨rfl, rfl⟩
  rw [hrun, List.nil_append] at hagree
  generalize hfalse : (Lowering.lowerAll false statements).run {} = plain at hagree
  cases hagree with
  | @ok u f g hannotates =>
    obtain ⟨code, hcode, hitems, hprologue⟩ := Lowering.lowersAll_of_lowerAll hstandard hfalse
    have hframe : (lower true statements).frame.counters = g.counters ∧ f.prologue = g.prologue := by
      obtain ⟨rfl, -⟩ := hannotates
      rw [lower_of_ok hrun]
      exact ⟨rfl, rfl⟩
    rw [hframe.1]
    -- nothing is bound at the start
    have hempty : ∀ {P : String → Nat → Prop} x slot, ([] : List (String × Nat)).lookup x = some slot →
        P x slot := by
      intro P x slot hx
      cases hx
    have hrows : ∀ row ∈ f.lines.toList.flatMap (fun l => Text.rows (Reader.rowOf l)),
        IsHarmless g.counters row ∨ ∃ s ∈ shown, row ∈ (Text.rows s.toList).tail := by
      intro row hrow
      obtain ⟨l, hl, hrow⟩ := List.mem_flatMap.mp hrow
      rcases hannotates.mem_cases hl with hremark | ⟨hl, -⟩
      · obtain ⟨s, hs, rfl⟩ := List.mem_map.mp hremark
        obtain ⟨first, hcomment⟩ := rows_comment s
        rw [hcomment] at hrow
        rcases List.mem_cons.mp hrow with rfl | hrow
        · exact .inl (.inl rfl)
        · exact .inr ⟨s, hs, hrow⟩
      · have hitem : l.item ∈ code := by
          have hmem : l.item ∈ itemsOf g.lines.toList := List.mem_map_of_mem hl
          rwa [hitems] at hmem
        have hfeed : '\n' ∉ Reader.rowOf l := fun hfeed =>
          absurd (Reader.plain_rowOf (hcode.fresh.known _ hitem) _ hfeed).2 (by decide)
        rw [Text.rows_of_not_mem hfeed, List.mem_singleton] at hrow
        rw [hrow]
        exact .inl (hcode.isCode hempty _ hitem).isHarmless
    refine ⟨shown, _, hshown, Frame.rows_text_flatMap (hframe.2.trans hprologue), hrows, ?_, ?_⟩
    · intro s hs row hrow
      obtain ⟨first, hcomment⟩ := rows_comment s
      refine List.mem_flatMap.mpr ⟨_, hannotates.mem_of_mem_remarks (List.mem_map_of_mem hs), ?_⟩
      rw [hcomment]
      exact List.mem_cons_of_mem _ hrow
    · intro hnames row hrow
      rcases hrows row hrow with hharmless | ⟨s, hs, hrow⟩
      · exact hharmless
      · have hfeed := hcode.not_mem_texts hstandard hempty hnames hshown s hs
        rw [Text.rows_of_not_mem hfeed] at hrow
        cases hrow

/-- A name with a line feed in it that brings in an instruction of its own. -/
theorem rows_of_lower_haltingName :
    (∀ d ∈ [bindingOf "x\n    hlt ;"], d.isStandard = true) ∧
      ∃ text, (lower true [bindingOf "x\n    hlt ;"]).text = .ok text ∧
        "    hlt ; = 1".toList ∈ Text.rows text.toList ∧
        ¬IsHarmless (lower true [bindingOf "x\n    hlt ;"]).frame.counters "    hlt ; = 1".toList := by
  have hstandard : ∀ d ∈ [bindingOf "x\n    hlt ;"], d.isStandard = true :=
    List.forall_mem_singleton.mpr rfl
  obtain ⟨f, hrun, -, -⟩ := @lower_bindingOf "x\n    hlt ;" (by decide)
  have htext : (lower true [bindingOf "x\n    hlt ;"]).text = .ok f.text := by
    rw [lower_of_ok hrun]
    rfl
  obtain ⟨shown, body, hshown, hrows, -, hbehind, -⟩ := rows_of_lower hstandard htext
  refine ⟨hstandard, f.text, htext, ?_, ?_⟩
  · have hwritten : [bindingOf "x\n    hlt ;"].mapM Datum.statementText = .ok ["x\n    hlt ; = 1"] := by cbv
    cases hwritten.symm.trans hshown
    have hrow := hbehind "x\n    hlt ; = 1" (by simp) "    hlt ; = 1".toList (by decide)
    rw [hrows]
    exact List.mem_append_left _ (List.mem_append_right _ hrow)
  · rintro (hcomment | ⟨text, hcode, hrow⟩)
    · exact absurd hcomment (by decide)
    · -- no code starts with this letter
      have hopens := hcode.opens_eq_true
      unfold IsCode.opens at hopens
      rw [← hrow] at hopens
      exact absurd hopens (by decide)

end ZebLang
