/-
  Lowered programs do what programs mean.

  The stack holds the values of all bindings, the latest on top, and above them the values of operands
  that wait for their operation.  A slot counts from the bottom, so values that come and go on top do
  not move it (`Agree`).

  1. The code of an expression leaves its value on the stack and writes what it prints
     (`Lowers.leaves`), by induction on the code.
  2. The code of a statement list halts with the outcome of the list (`LowersAll.halts`).
  3. The text of an accepted program, read back and run from its start, does so (`lower_correct`).

  A machine with addresses of 64 bits needs room for the stack; how much is known beforehand
  (`stackRoomAll`).  Where addresses are unbounded there is always room.
-/

import ZebLang.Proofs.Lowering.Labels
import ZebLang.Proofs.Machine.Printing

namespace ZebLang

variable {s : Space} {items : List Item}

/-! ## Slots and values -/

/-- `Agree slots bindings values`: each slot holds the value that its name is bound to.  Slots count from
    the bottom of the stack. -/
def Agree (slots : List (String × Nat)) (bindings : Bindings) (values : List Int) : Prop :=
  ∀ name slot, slots.lookup name = some slot →
    ∃ v, bindings.lookup name = some v ∧ values.reverse[slot]? = some v

namespace Agree

variable {slots : List (String × Nat)} {bindings : Bindings} {values : List Int}

/-- `Agree` with a value on top, which moves no slot. -/
theorem push (h : Agree slots bindings values) (w : Int) : Agree slots bindings (w :: values) := by
  intro name slot hslot
  obtain ⟨v, hv, hvalue⟩ := h name slot hslot
  refine ⟨v, hv, ?_⟩
  have hlt : slot < values.reverse.length := (List.getElem?_eq_some_iff.mp hvalue).1
  rw [List.reverse_cons, List.getElem?_append_left hlt]
  exact hvalue

/-- `Agree` with a name that is bound anew: it is found at its new slot, and other names where they were. -/
theorem bind (h : Agree slots bindings values) (name : String) (v : Int) :
    Agree (bindSlot slots name values.length) ((name, v) :: bindings) (v :: values) := by
  intro other slot hslot
  by_cases hname : other = name
  · subst hname
    simp only [bindSlot, List.lookup_cons, beq_self_eq_true] at hslot
    cases hslot
    exact ⟨v, by simp, by simp⟩
  · have hold : slots.lookup other = some slot := by
      rw [← hslot]
      exact (Frame.slot?_bind_of_ne { slots } values.length hname).symm
    obtain ⟨w, hw, hvalue⟩ := h.push v other slot hold
    exact ⟨w, by rw [List.lookup_cons, beq_false_of_ne hname]; exact hw, hvalue⟩

/-- `Agree`: where the value of a name lies, counted from the top. -/
theorem value {name : String} {slot : Nat} (h : Agree slots bindings values)
    (hslot : slots.lookup name = some slot) :
    ∃ v, bindings.lookup name = some v ∧ slot < values.length ∧
      values[values.length - 1 - slot]? = some v := by
  obtain ⟨v, hv, hvalue⟩ := h name slot hslot
  have hlt : slot < values.length := by
    have := (List.getElem?_eq_some_iff.mp hvalue).1
    rwa [List.length_reverse] at this
  rw [List.getElem?_reverse hlt] at hvalue
  exact ⟨v, hv, hlt, hvalue⟩

end Agree

/-! ## Room -/

/-- `d.stackRoom`: the bytes that an expression takes below the stack, at most. -/
def Datum.stackRoom : Datum → Nat
  | .binary _ left _ right => max left.stackRoom (8 + right.stackRoom)
  | .call _ _ argument => max argument.stackRoom 40
  | _ => 8

theorem Datum.le_stackRoom (d : Datum) : 8 ≤ d.stackRoom := by
  unfold stackRoom
  split <;> omega

/-- `stackRoomAll statements`: the bytes that a statement list takes below the stack, at most. -/
def stackRoomAll : List Datum → Nat
  | .exit _ e :: _ => e.stackRoom
  | .assign _ _ e :: rest | .loop _ _ e :: rest => max e.stackRoom (8 + stackRoomAll rest)
  | _ => 0

/-! ## Values left on the stack -/

/-- `Leaves s items m k top v values printed size`: the machine goes from `m` to `k` over `size` lines, with
    `v` on top of what was on the stack, and prints `printed`. -/
structure Leaves (s : Space) (items : List Item) (m k : Machine) (top v : Int) (values : List Int)
    (printed : String) (size : Nat) : Prop where
  reaches : Reaches s items m k
  place : k.place = m.place + size
  stack : OnStack k.memory (k.registers .rsp) top (v :: values)
  output : k.output = m.output ++ bytesOf printed

namespace Leaves

variable {m n k : Machine} {top v w : Int} {values values' : List Int} {first second : String}
  {size size' : Nat} {code more : List Item}

/-- `Leaves` for code that prints nothing. -/
theorem silent (hreach : Reaches s items m k) (hplace : k.place = m.place + size)
    (hstack : OnStack k.memory (k.registers .rsp) top (v :: values)) (houtput : k.output = m.output) :
    Leaves s items m k top v values "" size :=
  ⟨hreach, hplace, hstack, houtput.trans (List.append_nil _).symm⟩

/-- `Leaves`: what comes behind the code is where the machine has come to. -/
theorem sits (h : Leaves s items m n top v values first code.length)
    (hcode : Sits items m.place (code ++ more)) : Sits items n.place more := by
  rw [h.place]
  exact hcode.right

/-- `Leaves`: the stack has grown by one value. -/
theorem pointer (h : Leaves s items m n top v values first size)
    (hstack : OnStack m.memory (m.registers .rsp) top values) :
    n.registers .rsp = m.registers .rsp - 8 := by
  rw [h.stack.pointer, hstack.pointer, List.length_cons]
  omega

/-- `Leaves` composes. -/
theorem trans (h : Leaves s items m n top v values first size)
    (h' : Leaves s items n k top w values' second size') :
    Leaves s items m k top w values' (first ++ second) (size + size') where
  reaches := h.reaches.trans h'.reaches
  place := by rw [h'.place, h.place, Nat.add_assoc]
  stack := h'.stack
  output := by rw [h'.output, h.output, bytesOf_append, List.append_assoc]

end Leaves

/-! ## Parts of expressions -/

theorem signed_add_signed (a b : Int) : signed (signed a + signed b) = signed (a + b) :=
  signed_congr (by rw [Int.add_emod, emod_signed, emod_signed, ← Int.add_emod])

theorem signed_sub_signed (a b : Int) : signed (signed a - signed b) = signed (a - b) :=
  signed_congr (by rw [Int.sub_emod, emod_signed, emod_signed, ← Int.sub_emod])

/-- `signed` of what a register that holds words is given. -/
theorem signed_hold {r : Register} (v : Int) (hr : r.holdsAddress = false) :
    signed (s.hold r v) = signed v := by
  rw [Space.hold_word v hr, signed_emod]

/-- `Leaves` for a value that is brought to `rax` and pushed. -/
theorem leaves_load {m : Machine} {source : Operand} {top v : Int} {values : List Int}
    (hcode : Sits items m.place [.instr (.mov (.reg .rax) source), .instr (.push .rax)])
    (hvalue : signed (m.read source) = v)
    (hstack : OnStack m.memory (m.registers .rsp) top values)
    (hroom : s.Spans (m.registers .rsp - 8) top) : ∃ k, Leaves s items m k top v values "" 2 := by
  obtain ⟨n, hpush, hstack', -, -, houtput⟩ :=
    exec_push (m := m.set s .rax (m.read source)) .rax hstack hroom
  have hexec : m.execAll s [.mov (.reg .rax) source, .push .rax] = some n := by
    have hmov : m.exec s (.mov (.reg .rax) source) = some (m.set s .rax (m.read source)) := rfl
    simp [Machine.execAll, hmov, hpush]
  have hreach := @Sits.reaches s items [] m n [.mov (.reg .rax) source, .push .rax] hcode hexec
  refine ⟨_, .silent hreach rfl ?_ houtput⟩
  rw [Machine.registers_set, if_pos rfl, signed_hold _ rfl, hvalue] at hstack'
  exact hstack'

/-- `exec` of the instruction of an operator combines the values in `rax` and `rbx`. -/
theorem exec_combine {m : Machine} {operator : String} {combine : Instr} {a b : Int}
    (hoperator : Lowering.arithmetic? operator = some combine)
    (ha : signed (m.registers .rax) = a) (hb : signed (m.registers .rbx) = b) :
    ∃ v n, combine? operator a b = some v ∧ m.exec s combine = some n ∧
      signed (n.registers .rax) = v ∧ n.registers .rsp = m.registers .rsp ∧ n.memory = m.memory ∧
      n.output = m.output := by
  unfold Lowering.arithmetic? at hoperator
  unfold combine?
  split at hoperator
  next hplus =>
    cases hoperator
    refine ⟨_, _, by rw [if_pos hplus], rfl, ?_, rfl, rfl, rfl⟩
    show signed (s.hold .rax (m.registers .rax + m.registers .rbx)) = _
    rw [signed_hold _ rfl, ← signed_add_signed, ha, hb]
  next hplus =>
    split at hoperator
    next hminus =>
      cases hoperator
      refine ⟨_, _, by rw [if_neg hplus, if_pos hminus], rfl, ?_, rfl, rfl, rfl⟩
      show signed (s.hold .rax (m.registers .rax - m.registers .rbx)) = _
      rw [signed_hold _ rfl, ← signed_sub_signed, ha, hb]
    next hminus =>
      split at hoperator
      next htimes =>
        cases hoperator
        refine ⟨_, _, by rw [if_neg hplus, if_neg hminus, if_pos htimes], rfl, ?_, rfl, rfl, rfl⟩
        show signed (s.hold .rax (signed (m.registers .rax) * signed (m.registers .rbx))) = _
        rw [signed_hold _ rfl, ha, hb]
      next => cases hoperator

/-- `Leaves` for an operator: the two values on top of the stack give way to their combination. -/
theorem leaves_operator {m : Machine} {operator : String} {combine : Instr} {top a b : Int}
    {values : List Int} (hoperator : Lowering.arithmetic? operator = some combine)
    (hcode : Sits items m.place
      [.instr (.pop .rbx), .instr (.pop .rax), .instr combine, .instr (.push .rax)])
    (hstack : OnStack m.memory (m.registers .rsp) top (b :: a :: values))
    (hroom : s.Spans (m.registers .rsp) top) :
    ∃ v k, combine? operator a b = some v ∧ Leaves s items m k top v values "" 4 := by
  obtain ⟨m₁, hpop₁, hstack₁, hrsp₁, hrbx₁, -, -, houtput₁⟩ := exec_pop (r := .rbx) rfl hstack hroom
  obtain ⟨m₂, hpop₂, hstack₂, hrsp₂, hrax₂, -, hsame₂, houtput₂⟩ :=
    exec_pop (r := .rax) rfl hstack₁ (hroom.above (by omega))
  -- the second pop leaves the right operand in `rbx`
  rw [← hsame₂ .rbx (by decide) (by decide)] at hrbx₁
  obtain ⟨v, m₃, hv, hexec₃, hrax₃, hrsp₃, hmemory₃, houtput₃⟩ :=
    exec_combine (s := s) hoperator hrax₂ hrbx₁
  rw [← hrsp₃, ← hmemory₃] at hstack₂
  obtain ⟨m₄, hpush, hstack₄, -, -, houtput₄⟩ := exec_push .rax hstack₂ (hroom.above (by omega))
  rw [hrax₃] at hstack₄
  have hexec : m.execAll s [.pop .rbx, .pop .rax, combine, .push .rax] = some m₄ := by
    simp [Machine.execAll, hpop₁, hpop₂, hexec₃, hpush]
  have hreach := @Sits.reaches s items [] m m₄ [.pop .rbx, .pop .rax, combine, .push .rax] hcode hexec
  refine ⟨v, _, hv, .silent hreach rfl hstack₄ ?_⟩
  exact houtput₄.trans (houtput₃.trans (houtput₂.trans houtput₁))

/-! ## Expressions -/

/-- `Lowers`: the code leaves the value of the expression on the stack and writes what it prints. -/
theorem Lowers.leaves {slots : List (String × Nat)} {bindings : Bindings} {top : Int} {depth : Nat}
    {d : Datum} {c c' : Counters} {code : List Item} (h : Lowers slots depth d c code c') :
    ∀ {m : Machine} {values : List Int}, depth = values.length → Sits items m.place code →
      Agree slots bindings values → OnStack m.memory (m.registers .rsp) top values →
      s.Spans (m.registers .rsp - d.stackRoom) top →
      ∃ v printed k, valueOf bindings d = some (v, printed) ∧
        Leaves s items m k top v values printed code.length := by
  induction h with
  | @literal depth tag n c hmin hmax =>
    intro m values _ hcode _ hstack hroom
    have hvalue : signed (m.read (.imm n)) = n := by
      show signed (n % wordLimit) = n
      rw [signed_emod]
      refine signed_of_isSigned ⟨hmin, ?_⟩
      unfold Cause.literalMax at hmax
      omega
    obtain ⟨k, hleaves⟩ := leaves_load hcode hvalue hstack hroom
    exact ⟨n, "", k, rfl, hleaves⟩
  | @reference depth tag name slot c hslot =>
    intro m values hdepth hcode hagree hstack hroom
    obtain ⟨v, hv, hlt, hindex⟩ := hagree.value hslot
    -- a slot counts from the bottom, an offset from the top
    have hoffset : ((depth : Int) - slot - 1) * slotSize = 8 * ((values.length - 1 - slot : Nat) : Int) := by
      have hsize : (slotSize : Int) = 8 := rfl
      rw [hsize, hdepth]
      omega
    have hvalue : signed (m.read (.mem .rsp (some (((depth : Int) - slot - 1) * slotSize)))) = v := by
      show signed (m.memory.load (m.registers .rsp + ((depth : Int) - slot - 1) * slotSize) 8) = v
      rw [hoffset]
      exact hstack.slot _ v hindex
    obtain ⟨k, hleaves⟩ := leaves_load hcode hvalue hstack hroom
    refine ⟨v, "", k, ?_, hleaves⟩
    rw [valueOf, hv]
    rfl
  | @binary depth tag left operator right combine c c₁ c₂ code₁ code₂ hleft hright hoperator ihleft
      ihright =>
    intro m values hdepth hcode hagree hstack hroom
    have hneed := right.le_stackRoom
    simp only [Datum.stackRoom] at hroom
    obtain ⟨a, first, m₁, hvalue₁, hleaves₁⟩ :=
      ihleft hdepth hcode.left hagree hstack (hroom.above (by omega))
    have hpointer₁ := hleaves₁.pointer hstack
    have hcode₁ := hleaves₁.sits hcode
    -- the left value waits on the stack while the right one is computed
    obtain ⟨b, second, m₂, hvalue₂, hleaves₂⟩ :=
      ihright (by rw [hdepth]; rfl) hcode₁.left (hagree.push a) hleaves₁.stack (hroom.above (by omega))
    have hpointer₂ := hleaves₂.pointer hleaves₁.stack
    obtain ⟨v, k, hv, hleaves⟩ :=
      leaves_operator hoperator (hleaves₂.sits hcode₁) hleaves₂.stack (hroom.above (by omega))
    refine ⟨v, first ++ (second ++ ""), k, ?_, ?_⟩
    · simp [valueOf, hvalue₁, hvalue₂, hv]
    · rw [List.length_append, List.length_append]
      exact hleaves₁.trans (hleaves₂.trans hleaves)
  | @print depth tag argument c c₁ code hargument ih =>
    intro m values hdepth hcode hagree hstack hroom
    simp only [Datum.stackRoom] at hroom
    obtain ⟨v, first, m₁, hvalue₁, hleaves₁⟩ :=
      ih hdepth hcode.left hagree hstack (hroom.above (by omega))
    have hpointer₁ := hleaves₁.pointer hstack
    obtain ⟨k, hreach, hplace, hstack', -, houtput⟩ :=
      print_reaches (hleaves₁.sits hcode) hleaves₁.stack (hroom.above (by omega))
    refine ⟨v, first ++ printedLine v, k, ?_, ?_⟩
    · simp [valueOf, hvalue₁, builtin?]
    · rw [List.length_append]
      exact hleaves₁.trans ⟨hreach, hplace, hstack', houtput⟩
  | @range depth tag argument c c₁ code hargument ih =>
    intro m values hdepth hcode hagree hstack hroom
    simp only [Datum.stackRoom] at hroom
    obtain ⟨v, first, m₁, hvalue₁, hleaves₁⟩ :=
      ih hdepth hcode.left hagree hstack (hroom.above (by omega))
    have hpointer₁ := hleaves₁.pointer hstack
    obtain ⟨k, hreach, hplace, hstack', -, houtput⟩ :=
      range_reaches (hleaves₁.sits hcode) hleaves₁.stack (hroom.above (by omega))
    refine ⟨lastBelow v, first ++ "", k, ?_, ?_⟩
    · simp [valueOf, hvalue₁, builtin?]
    · rw [List.length_append]
      exact hleaves₁.trans (.silent hreach hplace hstack' houtput)

/-! ## Statements -/

/-- `o.Shows top how k`: a machine halted as an outcome says.  After an exit, `rdi` holds its value; at the
    end of the text, exactly the bound values lie on the stack. -/
def Outcome.Shows (o : Outcome) (top : Int) (how : Halt) (k : Machine) : Prop :=
  match o.status with
  | some v => how = .exited ∧ signed (k.registers .rdi) = v
  | none => how = .ended ∧ OnStack k.memory (k.registers .rsp) top (o.bindings.map (·.2))

/-- `exitItems` end the program with the value on top of the stack in `rdi`. -/
theorem exit_halts {m : Machine} {top v : Int} {values : List Int}
    (hcode : Sits items m.place exitItems)
    (hstack : OnStack m.memory (m.registers .rsp) top (v :: values))
    (hroom : s.Spans (m.registers .rsp) top) :
    ∃ k, Reaches s items m k ∧ k.step s items = .halts .exited k ∧ signed (k.registers .rdi) = v ∧
      k.output = m.output := by
  have hmov : m.exec s (.mov (.reg .rax) (.imm 60)) = some (m.set s .rax (60 % wordLimit)) := rfl
  obtain ⟨n, hpop, -, -, hvalue, -, hothers, houtput⟩ :=
    exec_pop (m := m.set s .rax (60 % wordLimit)) (r := .rdi) rfl hstack hroom
  have hexec : m.execAll s [.mov (.reg .rax) (.imm 60), .pop .rdi] = some n := by
    simp [Machine.execAll, hmov, hpop]
  have hreach := @Sits.reaches s items _ m n [.mov (.reg .rax) (.imm 60), .pop .rdi] hcode hexec
  have hcall : items[m.place + 2]? = some (.instr .syscall) := (hcode 2 _ rfl).1
  have hrax : n.registers .rax = 60 := by
    rw [hothers .rax (by decide) (by decide)]
    show s.hold .rax (60 % wordLimit) = 60
    exact Space.hold_of_word rfl (by decide) (by decide)
  refine ⟨_, hreach, ?_, hvalue, houtput⟩
  unfold Machine.step
  rw [show items[m.place + [Instr.mov (.reg .rax) (.imm 60), .pop .rdi].length]? = _ from hcall]
  simp only [Machine.call, hrax, if_true]

/-- `step` at the end of a program halts. -/
theorem step_end {m : Machine} (h : m.place = items.length) : m.step s items = .halts .ended m := by
  unfold Machine.step
  rw [List.getElem?_eq_none (by omega)]

/-- `LowersAll`: the code halts with the outcome of the list. -/
theorem LowersAll.halts {top : Int} {slots : List (String × Nat)} {depth : Nat}
    {statements : List Datum} {c c' : Counters} {code : List Item}
    (h : LowersAll slots depth statements c code c') :
    ∀ {m : Machine} {bindings : Bindings}, depth = bindings.length → Sits items m.place code →
      m.place + code.length = items.length → Agree slots bindings (bindings.map (·.2)) →
      OnStack m.memory (m.registers .rsp) top (bindings.map (·.2)) →
      s.Spans (m.registers .rsp - stackRoomAll statements) top →
      ∃ o how n k, evaluate bindings statements = some o ∧ Reaches s items m n ∧
        n.step s items = .halts how k ∧ k.output = m.output ++ bytesOf o.output ∧
        o.Shows top how k := by
  induction h with
  | nil =>
    intro m bindings _ _ hend _ hstack _
    refine ⟨⟨"", bindings, none⟩, .ended, m, m, rfl, .refl m, step_end hend, ?_, rfl, hstack⟩
    exact (List.append_nil _).symm
  | @exit slots depth tag e rest c c₁ c₂ code₁ code₂ hvalue hrest ih =>
    intro m bindings hdepth hcode _ hagree hstack hroom
    have hlength : depth = (bindings.map (·.2)).length := by rw [List.length_map]; exact hdepth
    have hneed := e.le_stackRoom
    obtain ⟨v, printed, m₁, hv, hleaves⟩ := hvalue.leaves hlength hcode.left hagree hstack hroom
    have hpointer := hleaves.pointer hstack
    have hcode₁ := hleaves.sits hcode
    simp only [stackRoomAll] at hroom
    obtain ⟨k, hreach, hhalts, hstatus, houtput⟩ :=
      exit_halts hcode₁.left hleaves.stack (hroom.above (by omega))
    refine ⟨⟨printed, bindings, some v⟩, .exited, k, k, ?_, hleaves.reaches.trans hreach, hhalts, ?_, rfl,
      hstatus⟩
    · simp [evaluate, hv]
    · rw [houtput, hleaves.output]
  | @bind slots depth d name e rest c c₁ c₂ code₁ code₂ hbinds hvalue hrest ih =>
    intro m bindings hdepth hcode hend hagree hstack hroom
    have hlength : depth = (bindings.map (·.2)).length := by rw [List.length_map]; exact hdepth
    have hneed : stackRoomAll (d :: rest) = max e.stackRoom (8 + stackRoomAll rest) := by
      cases hbinds <;> rfl
    rw [hneed] at hroom
    obtain ⟨v, printed, m₁, hv, hleaves⟩ :=
      hvalue.leaves hlength hcode.left hagree hstack (hroom.above (by omega))
    have hpointer := hleaves.pointer hstack
    have hplace := hleaves.place
    rw [List.length_append] at hend
    -- the value stays where it is and becomes the slot of the name
    rw [hlength] at ih
    obtain ⟨o, how, n, k, ho, hreach, hhalts, houtput, hshows⟩ :=
      @ih m₁ ((name, v) :: bindings) (by simp) (hleaves.sits hcode) (by omega) (hagree.bind name v)
        hleaves.stack (hroom.above (by omega))
    refine ⟨o.after printed, how, n, k, ?_, hleaves.reaches.trans hreach, hhalts, ?_, hshows⟩
    · cases hbinds <;> simp [evaluate, hv, ho]
    · rw [houtput, hleaves.output]
      show _ = m.output ++ bytesOf (printed ++ o.output)
      rw [bytesOf_append, List.append_assoc]

/-! ## Programs -/

/-- Compiler correctness.  The text of an accepted program is assembly, and from its start it runs to a
    halt.  What it writes and how it halts is what the program means. -/
theorem lower_correct {statements : List Datum} {text : String} {m : Machine}
    (hstandard : ∀ d ∈ statements, d.isStandard = true)
    (haccepted : (lower false statements).text = .ok text)
    (hroom : s.Spans (m.registers .rsp - stackRoomAll statements) (m.registers .rsp)) :
    ∃ code start o steps how k, assemble text = some code ∧ placeOf? code "_start" = some start ∧
      evaluate [] statements = some o ∧
      Machine.run s code steps { m with place := start } = some (how, k) ∧
      k.output = m.output ++ bytesOf o.output ∧ o.Shows (m.registers .rsp) how k := by
  obtain ⟨code, c, hlowers, hassemble, hnodup⟩ := assemble_of_lower hstandard haccepted
  have hsits := sits_self hnodup
  have hstart : placeOf? (started code) "_start" = some 0 := hsits.label (i := 0) rfl
  have hlabel : Machine.step s (started code) { m with place := 0 } = .goes { m with place := 1 } :=
    Machine.step_label hsits.head
  have hempty : OnStack m.memory (m.registers .rsp) (m.registers .rsp) [] :=
    ⟨by simp, fun i v hv => by cases hv⟩
  have hagree : Agree [] [] [] := fun name slot hslot => by cases hslot
  obtain ⟨o, how, n, k, ho, hreach, hhalts, houtput, hshows⟩ :=
    @LowersAll.halts s (started code) (m.registers .rsp) [] 0 statements ⟨0, 0⟩ c code hlowers
      { m with place := 1 } [] rfl hsits.tail (Nat.add_comm 1 _) hagree hempty hroom
  obtain ⟨steps, hrun⟩ := (Reaches.head hlabel hreach).run hhalts
  refine ⟨_, 0, o, steps, how, k, hassemble, ?_, ho, ?_, houtput, hshows⟩
  · rw [placeOf?_named]
    exact hstart
  · rw [Machine.run_named]
    exact hrun

/-- A program that prints a negative number, counts and exits: `x = print(1 - 3)`,
    `for x in range(x * x)`, `exit x - 10`. -/
def countingProgram : List Datum :=
  let number (n : Int) : Datum := .literal {} (.int n)
  let x : Datum := .reference {} (.text "x")
  [.assign {} (.text "x")
      (.call {} (.text "print") (.binary {} (number 1) (.text "-") (number 3))),
    .loop {} (.text "x") (.call {} (.text "range") (.binary {} x (.text "*") x)),
    .exit {} (.binary {} x (.text "-") (number 10))]

/-- The program runs on a machine with a stack of 64 bytes: it prints `-2` and exits with `3 - 10`. -/
theorem lower_correct_countingProgram :
    ∃ code start steps k, assemble (lower false countingProgram).frame.text = some code ∧
      placeOf? code "_start" = some start ∧
      Machine.run .words code steps ⟨start, fun _ => 64, fun _ => 0, 0, []⟩ = some (.exited, k) ∧
      k.output = bytesOf "-2\n" ∧ signed (k.registers .rdi) = -7 := by
  obtain ⟨code, start, o, steps, how, k, hassemble, hstart, ho, hrun, houtput, hshows⟩ :=
    @lower_correct .words countingProgram (lower false countingProgram).frame.text
      ⟨0, fun _ => 64, fun _ => 0, 0, []⟩ (by decide) rfl (by decide)
  have hmeaning : evaluate [] countingProgram = some ⟨"-2\n", [("x", 3), ("x", -2)], some (-7)⟩ := by
    decide
  rw [hmeaning] at ho
  cases ho
  obtain ⟨rfl, hstatus⟩ := hshows
  exact ⟨code, start, steps, k, hassemble, hstart, hrun, houtput, hstatus⟩

end ZebLang
