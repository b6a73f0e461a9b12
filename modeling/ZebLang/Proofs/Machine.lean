/-
  A machine for assembly.

  The machine executes the instructions that lowering uses.  Its registers hold 64-bit words, its memory
  holds bytes, and a word lies in memory with the lowest byte first.  Comparisons read words as signed
  numbers, division reads them as unsigned ones.  Two system calls are known: one that writes bytes to
  the standard output, all of them, and one that ends the program.

  Whatever no program should do ends in a fault: a jump to a label that is not there, a quotient that
  fits no register, writing to another file, a system call that is not known.  A program halts when it
  makes the call that ends it, or when control arrives at the end of the text.

  Addresses come in two sizes (`Space`).  In the space of words `rsp` and `rsi` hold words as all
  registers do, so a stack can outgrow it; in the unbounded space they hold any integer, so a stack
  always has room.
-/

import ZebLang.Assembly
import ZebLang.Proofs.Meaning

namespace ZebLang

/-! ## Memory -/

/-- `Memory`: a byte at every address. -/
abbrev Memory := Int → UInt8

namespace Memory

/-- `m.put a b`: the memory with another byte at one address. -/
def put (m : Memory) (a : Int) (b : UInt8) : Memory := fun x => if x = a then b else m x

/-- `m.load a size`: the number in so many bytes from an address on, lowest byte first. -/
def load (m : Memory) (a : Int) : Nat → Int
  | 0 => 0
  | size + 1 => ((m a).toNat : Int) + 256 * m.load (a + 1) size

/-- `m.store a v size`: the memory with the lowest bytes of a number from an address on, lowest byte first.
    -/
def store (m : Memory) (a v : Int) : Nat → Memory
  | 0 => m
  | size + 1 => (m.store (a + 1) (v / 256) size).put a (UInt8.ofNat (v % 256).toNat)

/-- `m.bytes a size`: so many bytes from an address on. -/
def bytes (m : Memory) (a : Int) (size : Nat) : List UInt8 :=
  (List.range size).map fun i : Nat => m (a + (i : Int))

theorem put_self (m : Memory) (a : Int) (b : UInt8) : m.put a b a = b := if_pos rfl

theorem put_of_ne (m : Memory) {a x : Int} (b : UInt8) (h : x ≠ a) : m.put a b x = m x := if_neg h

theorem store_byte (m : Memory) (a v : Int) :
    m.store a v 1 = m.put a (UInt8.ofNat (v % 256).toNat) := rfl

theorem bytes_succ (m : Memory) (a : Int) (size : Nat) :
    m.bytes a (size + 1) = m a :: m.bytes (a + 1) size := by
  unfold bytes
  rw [List.range_succ_eq_map, List.map_cons, List.map_map]
  congr 1
  · rw [show a + ((0 : Nat) : Int) = a by omega]
  · refine List.map_congr_left fun i _ => ?_
    show m (a + ((i + 1 : Nat) : Int)) = m (a + 1 + (i : Int))
    rw [show a + ((i + 1 : Nat) : Int) = a + 1 + (i : Int) by omega]

/-- `bytes` with a byte put in front of them. -/
theorem bytes_put (m : Memory) (a : Int) (b : UInt8) (size : Nat) :
    (m.put (a - 1) b).bytes (a - 1) (size + 1) = b :: m.bytes a size := by
  rw [bytes_succ, put_self, show a - 1 + 1 = a by omega]
  congr 1
  refine List.map_congr_left fun i _ => ?_
  exact put_of_ne m b (by omega)

/-- `store` leaves all other addresses alone. -/
theorem store_of_outside (m : Memory) (v : Int) (size : Nat) {a x : Int}
    (h : x < a ∨ a + (size : Int) ≤ x) : m.store a v size x = m x := by
  induction size generalizing a v with
  | zero => rfl
  | succ size ih =>
    rw [store, put_of_ne _ _ (by omega)]
    exact ih _ (by omega)

/-- `load` depends on the bytes from the address on, and on nothing else. -/
theorem load_congr {m n : Memory} {a : Int} {size : Nat}
    (h : ∀ x, a ≤ x → x < a + (size : Int) → m x = n x) : m.load a size = n.load a size := by
  induction size generalizing a with
  | zero => rfl
  | succ size ih =>
    rw [load, load, h a (by omega) (by omega), ih fun x hlow hhigh => h x (by omega) (by omega)]

/-- `load` gives back the word that `store` put there. -/
theorem load_store (m : Memory) (a v : Int) : (m.store a v 8).load a 8 = v % wordLimit := by
  -- one byte: the rest of the number was stored behind it and is not touched
  have step : ∀ (size : Nat) (a v : Int), (m.store a v (size + 1)).load a (size + 1) =
      v % 256 + 256 * (m.store (a + 1) (v / 256) size).load (a + 1) size := by
    intro size a v
    have hbyte : ((UInt8.ofNat (v % 256).toNat).toNat : Int) = v % 256 := by
      rw [UInt8.toNat_ofNat']; omega
    rw [load, store, put_self, hbyte]
    congr 2
    exact load_congr fun x hlow _ => put_of_ne _ _ (by omega)
  rw [step, step, step, step, step, step, step, step, load]
  unfold wordLimit
  omega

/-- `load` of eight bytes is a word. -/
theorem load_bounds (m : Memory) (a : Int) : 0 ≤ m.load a 8 ∧ m.load a 8 < wordLimit := by
  have hbyte : ∀ x : Int, ((m x).toNat : Int) < 256 := fun x => by have := (m x).toNat_lt; omega
  have h0 := hbyte a
  have h1 := hbyte (a + 1)
  have h2 := hbyte (a + 1 + 1)
  have h3 := hbyte (a + 1 + 1 + 1)
  have h4 := hbyte (a + 1 + 1 + 1 + 1)
  have h5 := hbyte (a + 1 + 1 + 1 + 1 + 1)
  have h6 := hbyte (a + 1 + 1 + 1 + 1 + 1 + 1)
  have h7 := hbyte (a + 1 + 1 + 1 + 1 + 1 + 1 + 1)
  simp only [load, wordLimit]
  omega

end Memory

/-! ## Registers -/

/-- `Space`: how far addresses reach. -/
inductive Space where
  | words
  | unbounded
  deriving DecidableEq, Repr

/-- `holdsAddress`: the registers that hold addresses. -/
def Register.holdsAddress : Register → Bool
  | rsp | rsi => true
  | _ => false

namespace Space

/-- `s.hold r v`: what a register holds when a number is put into it. -/
def hold (s : Space) (r : Register) (v : Int) : Int :=
  if s = unbounded ∧ r.holdsAddress = true then v else v % wordLimit

/-- `s.Spans low high`: all addresses between the two are addresses of the space, ends included. -/
def Spans (s : Space) (low high : Int) : Prop :=
  s = unbounded ∨ 0 ≤ low ∧ high < wordLimit

instance (s : Space) (low high : Int) : Decidable (s.Spans low high) :=
  inferInstanceAs (Decidable (_ ∨ _))

/-- `Spans` passes to what lies between. -/
theorem Spans.mono {s : Space} {low high low' high' : Int} (h : s.Spans low high)
    (hlow : low ≤ low') (hhigh : high' ≤ high) : s.Spans low' high' := by
  rcases h with h | h
  · exact .inl h
  · exact .inr ⟨by omega, by omega⟩

theorem Spans.above {s : Space} {low high low' : Int} (h : s.Spans low high) (hlow : low ≤ low') :
    s.Spans low' high := h.mono hlow (Int.le_refl high)

/-- `hold` keeps an address of the space in a register that holds addresses. -/
theorem hold_address {s : Space} {r : Register} {v low high : Int} (h : s.Spans low high)
    (hr : r.holdsAddress = true) (hlow : low ≤ v) (hhigh : v ≤ high) : s.hold r v = v := by
  unfold hold
  rcases h with h | h
  · rw [if_pos ⟨h, hr⟩]
  · split
    · rfl
    · exact Int.emod_eq_of_lt (by omega) (by omega)

/-- `hold` keeps the lowest 64 bits in every other register. -/
theorem hold_word {s : Space} {r : Register} (v : Int) (hr : r.holdsAddress = false) :
    s.hold r v = v % wordLimit := by
  unfold hold
  rw [if_neg]
  rintro ⟨-, h⟩
  rw [hr] at h
  cases h

/-- `hold` keeps a word as it is. -/
theorem hold_of_word {s : Space} {r : Register} {v : Int} (hr : r.holdsAddress = false) (hlow : 0 ≤ v)
    (hhigh : v < wordLimit) : s.hold r v = v := by
  rw [hold_word v hr]
  exact Int.emod_eq_of_lt hlow hhigh

end Space

/-! ## States -/

/-- `Machine`: a state of the machine. -/
structure Machine where
  /-- The line that comes next, counted from zero. -/
  place : Nat
  registers : Register → Int
  memory : Memory
  /-- What the last comparison found: the difference of its operands, or their common bits. -/
  comparison : Int
  /-- The bytes written to the standard output. -/
  output : List UInt8

namespace Machine

/-- `m.next`: the state with the next line in turn. -/
def next (m : Machine) : Machine := { m with place := m.place + 1 }

/-- `m.set s r v`: the state with a number put into a register. -/
def set (m : Machine) (s : Space) (r : Register) (v : Int) : Machine :=
  { m with registers := fun x => if x = r then s.hold r v else m.registers x }

/-- `m.store a v size`: the state with a number stored in memory. -/
def store (m : Machine) (a v : Int) (size : Nat) : Machine :=
  { m with memory := m.memory.store a v size }

/-- `m.address base offset`: the address that a base register and an offset give. -/
def address (m : Machine) (base : Register) (offset : Option Int) : Int :=
  m.registers base + offset.getD 0

/-- `m.read o`: the value of an operand. -/
def read (m : Machine) : Operand → Int
  | .reg r => m.registers r
  | .dl => m.registers .rdx % 256
  | .imm value => value % wordLimit
  | .mem base offset => m.memory.load (m.address base offset) 8
  | .byteMem base => m.memory.load (m.address base none) 1

/-- `m.write s v o`: the state with a number written to an operand; nothing is written to a constant. -/
def write (m : Machine) (s : Space) (v : Int) : Operand → Option Machine
  | .reg r => some (m.set s r v)
  | .dl => some (m.set s .rdx (m.registers .rdx - m.registers .rdx % 256 + v % 256))
  | .imm _ => none
  | .mem base offset => some (m.store (m.address base offset) v 8)
  | .byteMem base => some (m.store (m.address base none) v 1)

/-- `m.divide s divisor`: the quotient and remainder of the two words in `rdx` and `rax` by a word, unless
    the quotient is no word. -/
def divide (m : Machine) (s : Space) (divisor : Int) : Option Machine :=
  let dividend := m.registers .rdx * wordLimit + m.registers .rax
  if divisor = 0 ∨ wordLimit ≤ dividend / divisor then none
  else some ((m.set s .rax (dividend / divisor)).set s .rdx (dividend % divisor))

/-- `m.exec s i`: the state after an instruction that neither jumps nor calls the system, apart from its
    place. -/
def exec (m : Machine) (s : Space) : Instr → Option Machine
  | .mov (.mem base offset) .dl => some (m.store (m.address base offset) (m.read .dl) 1)
  | .mov target source => m.write s (m.read source) target
  | .lea target base offset => some (m.set s target (m.address base (some offset)))
  | .add target source => m.write s (m.read target + m.read source) target
  | .sub target source => m.write s (m.read target - m.read source) target
  | .xor target source =>
      m.write s (((m.read target).toNat ^^^ (m.read source).toNat : Nat) : Int) target
  | .cmp left right =>
      some { m with comparison := signed (m.registers left) - signed (m.registers right) }
  | .test left right =>
      some { m with
        comparison := signed (((m.registers left).toNat &&& (m.registers right).toNat : Nat) : Int) }
  | .inc r => some (m.set s r (m.registers r + 1))
  | .dec r => some (m.set s r (m.registers r - 1))
  | .neg r => some (m.set s r (-m.registers r))
  | .imul r =>
      let product := signed (m.registers .rax) * signed (m.registers r)
      some ((m.set s .rax product).set s .rdx (product / wordLimit))
  | .div r => m.divide s (m.registers r)
  | .push r =>
      let low := m.set s .rsp (m.registers .rsp - 8)
      some (low.store (low.registers .rsp) (m.registers r) 8)
  | .pop r =>
      let taken := m.set s r (m.memory.load (m.registers .rsp) 8)
      some (taken.set s .rsp (m.registers .rsp + 8))
  | .jump .. | .syscall => none

/-- `m.takes condition`: a jump on this condition is taken. -/
def takes (m : Machine) : Condition → Bool
  | .always => true
  | .lessOrEqual => m.comparison ≤ 0
  | .notNegative => 0 ≤ m.comparison
  | .notZero => m.comparison ≠ 0

end Machine

/-! ## Runs -/

/-- `Halt`: how a program halts. -/
inductive Halt where
  /-- By the system call that ends it. -/
  | exited
  /-- At the end of the text. -/
  | ended
  deriving DecidableEq, Repr

/-- `Step`: what one step leads to. -/
inductive Step where
  | goes (m : Machine)
  | halts (how : Halt) (m : Machine)
  | fault

/-- `isLabel name`: a label of this name stands on the line. -/
def Item.isLabel (name : String) : Item → Bool
  | .label l => l.text == name
  | _ => false

/-- `placeOf? items name`: the line with a label. -/
def placeOf? (items : List Item) (name : String) : Option Nat := items.findIdx? (·.isLabel name)

namespace Machine

/-- `m.call s`: a system call; `rax` says which. -/
def call (m : Machine) (s : Space) : Step :=
  if m.registers .rax = 60 then .halts .exited m
  else if m.registers .rax = 1 ∧ m.registers .rdi = 1 then
    let length := m.registers .rdx
    let written := m.memory.bytes (m.registers .rsi) length.toNat
    .goes ({ m with output := m.output ++ written }.set s .rax length).next
  else .fault

/-- `step s items m`: one line. -/
def step (s : Space) (items : List Item) (m : Machine) : Step :=
  match items[m.place]? with
  | none => .halts .ended m
  | some (.label _) | some (.comment _) => .goes m.next
  | some (.verbatim _) => .fault
  | some (.instr (.jump condition target)) =>
      if m.takes condition then
        match placeOf? items target.text with
        | some place => .goes { m with place }
        | none => .fault
      else .goes m.next
  | some (.instr .syscall) => m.call s
  | some (.instr i) =>
      match m.exec s i with
      | some n => .goes { n with place := m.place + 1 }
      | none => .fault

/-- `run s items n m`: at most `n` lines, how the program halts and the state in which it does. -/
def run (s : Space) (items : List Item) : Nat → Machine → Option (Halt × Machine)
  | 0, _ => none
  | n + 1, m =>
      match m.step s items with
      | .goes m => run s items n m
      | .halts how m => some (how, m)
      | .fault => none

end Machine

end ZebLang
