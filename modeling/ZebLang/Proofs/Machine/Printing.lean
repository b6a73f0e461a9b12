/-
  The printing sequence.

  The value on top of the stack is written in decimal, on a line of its own, and stays where it is.
  Its text is made from the last character to the first in a buffer of 32 bytes below the stack: a line
  feed, then the digits by repeated division, then a minus if the value is negative.

  1. The value is loaded and its sign is taken off.  The negative of the least value wraps to itself,
     which read without sign is its magnitude.
  2. Each turn of the loop puts the last digit in front of the bytes so far (`digit_turn`), so the loop
     puts all digits in front of them (`digit_loop`).
  3. At most twenty digits, a minus and a line feed are put, so the buffer is not left.  Each step says so
     itself (`Stays`), and that nothing changes outside the buffer need not be said again.
  4. The bytes are written, and the buffer is given back.
-/

import ZebLang.Proofs.Machine.Counting
import ZebLang.Proofs.Machine.Footprint
import ZebLang.Proofs.Text
import ZebLang.Text.Utf8

namespace ZebLang

variable {s : Space} {items : List Item} {n place : Nat} {bufferEnd : Int}

/-- `byteOf c`: the byte of a character. -/
def byteOf (c : Char) : UInt8 := UInt8.ofNat c.toNat

/-- `digitBytes q`: the digits of a number, as bytes. -/
def digitBytes (q : Nat) : List UInt8 := (Nat.toDigits 10 q).map byteOf

theorem byteOf_digitChar {d : Nat} (h : d < 10) : byteOf (Nat.digitChar d) = UInt8.ofNat (d + 48) := by
  revert d
  decide

/-- `digitBytes` of a number are those of its tenth, and its last digit. -/
theorem digitBytes_eq (q : Nat) : digitBytes q =
    (if q / 10 = 0 then [] else digitBytes (q / 10)) ++ [UInt8.ofNat (q % 10 + 48)] := by
  unfold digitBytes
  rw [← byteOf_digitChar (Nat.mod_lt q (by decide))]
  split
  next h => rw [Nat.toDigits_of_lt_base (by omega), Nat.mod_eq_of_lt (by omega)]; rfl
  next h => rw [Nat.toDigits_of_base_le (by decide) (by omega), List.map_append]; rfl

/-! ## The buffer -/

/-- `Buffered m bufferEnd text`: the bytes of the buffer from `rsi` up to its end. -/
structure Buffered (m : Machine) (bufferEnd : Int) (text : List UInt8) : Prop where
  pointer : m.registers .rsi = bufferEnd - (text.length : Int)
  bytes : m.memory.bytes (m.registers .rsi) text.length = text

/-- `Buffered` with a byte more, in front. -/
theorem Buffered.cons {m k : Machine} {text : List UInt8} {b : UInt8}
    (h : Buffered m bufferEnd text) (hrsi : k.registers .rsi = m.registers .rsi - 1)
    (hmemory : k.memory = m.memory.put (m.registers .rsi - 1) b) :
    Buffered k bufferEnd (b :: text) := by
  have hpointer := h.pointer
  refine ⟨?_, ?_⟩
  · rw [hrsi, List.length_cons]
    omega
  · rw [hrsi, hmemory, List.length_cons, Memory.bytes_put, h.bytes]

/-! ## Digits -/

/-- `digitCode`: the straight code of one turn. -/
def digitCode : List Instr :=
  [.xor (.reg .rdx) (.reg .rdx), .div .rcx, .add .dl (.imm 48), .dec .rsi,
    .mov (.mem .rsi none) .dl, .test .rax .rax]

/-- `digitCode` puts the last digit of the number in `rax` in front of the bytes so far. -/
theorem digit_turn {m : Machine} {q : Nat} (hcode : Sits items place (printItems n))
    (hplace : m.place = place + 11) (hq : (q : Int) < wordLimit)
    (hrax : m.registers .rax = (q : Int)) (hrcx : m.registers .rcx = 10)
    (hrsi : s.hold .rsi (m.registers .rsi - 1) = m.registers .rsi - 1)
    (hlow : bufferEnd - 32 ≤ m.registers .rsi - 1) (hhigh : m.registers .rsi ≤ bufferEnd) :
    ∃ k, Stays s items (bufferEnd - 32) bufferEnd m k ∧ k.place = place + 18 ∧
      k.registers .rax = ((q / 10 : Nat) : Int) ∧
      k.memory = m.memory.put (m.registers .rsi - 1) (UInt8.ofNat (q % 10 + 48)) ∧
      k.registers .rsi = m.registers .rsi - 1 ∧ k.registers .rcx = 10 ∧
      k.registers .r8 = m.registers .r8 ∧ k.registers .rsp = m.registers .rsp ∧
      k.comparison = ((q / 10 : Nat) : Int) ∧ k.output = m.output := by
  have hlabel : Stays s items (bufferEnd - 32) bufferEnd m m.next :=
    Stays.label (hcode.line hplace rfl)
  have hbody : Sits items m.next.place (digitCode.map Item.instr ++ (printItems n).drop 18) := by
    rw [Machine.place_next, hplace]
    exact hcode.drop 12
  have hnat : (((q : Int) / 10).toNat : Int) = (q : Int) / 10 := Int.toNat_of_nonneg (by omega)
  have hbyte : (((q : Int) % 10 + 48) % 256).toNat = q % 10 + 48 := by omega
  have hfits : (q : Int) / 10 < wordLimit := by unfold wordLimit at *; omega
  have hzero : s.hold .rdx 0 = 0 := Space.hold_of_word rfl (Int.le_refl 0) (by decide)
  have hrax₁ : s.hold .rax ((q : Int) / 10) = (q : Int) / 10 :=
    Space.hold_of_word rfl (by omega) hfits
  have hrdx₁ : s.hold .rdx ((q : Int) % 10) = (q : Int) % 10 :=
    Space.hold_of_word rfl (by omega) (by unfold wordLimit; omega)
  have hrdx₂ : s.hold .rdx ((q : Int) % 10 + 48) = (q : Int) % 10 + 48 :=
    Space.hold_of_word rfl (by omega) (by unfold wordLimit; omega)
  have hsmall : (q : Int) % 10 % 256 = (q : Int) % 10 := by omega
  have hsmall₂ : ((q : Int) % 10 + 48) % 256 = (q : Int) % 10 + 48 := by omega
  have hsigned : signed ((q : Int) / 10) = (q : Int) / 10 :=
    signed_of_isSigned ⟨by omega, by unfold wordLimit at hq; omega⟩
  -- instruction by instruction
  let m₁ := m.next.set s .rdx 0
  let m₂ := (m₁.set s .rax ((q : Int) / 10)).set s .rdx ((q : Int) % 10)
  let m₃ := m₂.set s .rdx ((q : Int) % 10 + 48)
  let m₄ := m₃.set s .rsi (m.registers .rsi - 1)
  let m₅ := m₄.store (m.registers .rsi - 1) ((q : Int) % 10 + 48) 1
  have hxor : m.next.exec s (.xor (.reg .rdx) (.reg .rdx)) = some m₁ := by
    simp [m₁, Machine.exec, Machine.write, Machine.read]
  have hdiv : m₁.exec s (.div .rcx) = some m₂ := by
    simp [m₁, m₂, Machine.exec, Machine.divide, hrax, hrcx, hzero, hfits]
  have hadd : m₂.exec s (.add .dl (.imm 48)) = some m₃ := by
    have hconstant : (48 : Int) % wordLimit = 48 := by decide
    simp [m₂, m₃, Machine.exec, Machine.write, Machine.read, hrdx₁, hsmall, hsmall₂, hconstant]
  have hdec : m₃.exec s (.dec .rsi) = some m₄ := by
    simp [m₁, m₂, m₃, m₄, Machine.exec]
  have hmov : m₄.exec s (.mov (.mem .rsi none) .dl) = some m₅ := by
    simp [m₃, m₄, m₅, Machine.exec, Machine.read, Machine.address, hrdx₂, hsmall₂, hrsi]
  have htest : m₅.exec s (.test .rax .rax) = some { m₅ with comparison := (q : Int) / 10 } := by
    simp [m₂, m₃, m₄, m₅, Machine.exec, hrax₁, Nat.and_self, hnat, hsigned]
  have hexec : m.next.execAll s digitCode = some { m₅ with comparison := (q : Int) / 10 } := by
    simp [digitCode, Machine.execAll, hxor, hdiv, hadd, hdec, hmov, htest]
  have hstores : m.next.storesAll s digitCode = [(m.registers .rsi - 1, 1)] := by
    simp [m₄, digitCode, Machine.storesAll, Machine.stored?, Machine.bytesAt?, Machine.address, hxor, hdiv,
      hadd, hdec, hmov, htest, hrsi]
  have hwithin : ∀ w ∈ m.next.storesAll s digitCode,
      bufferEnd - 32 ≤ w.1 ∧ w.1 + (w.2 : Int) ≤ bufferEnd := by
    rw [hstores, List.forall_mem_singleton]
    omega
  refine ⟨_, hlabel.trans (hbody.stays hexec hwithin), ?_, ?_, ?_, ?_, ?_, ?_, ?_, ?_, rfl⟩
  · show m.place + 1 + 6 = _
    omega
  · simp [m₂, m₃, m₄, m₅, hrax₁]
  · simp [m₁, m₂, m₃, m₄, m₅, Memory.store_byte, hbyte]
  · simp [m₄, m₅, hrsi]
  · simp [m₁, m₂, m₃, m₄, m₅, hrcx]
  · simp [m₁, m₂, m₃, m₄, m₅]
  · simp [m₁, m₂, m₃, m₄, m₅]
  · simp

/-- The loop puts the digits of the number in `rax` in front of the bytes so far. -/
theorem digit_loop (hcode : Sits items place (printItems n))
    (hroom : s.Spans (bufferEnd - 32) bufferEnd) (q : Nat) :
    ∀ (m : Machine) (text : List UInt8), m.place = place + 11 → (q : Int) < wordLimit →
      m.registers .rax = (q : Int) → m.registers .rcx = 10 → Buffered m bufferEnd text →
      (digitBytes q).length + text.length ≤ 32 →
      ∃ k, Stays s items (bufferEnd - 32) bufferEnd m k ∧ k.place = place + 19 ∧
        Buffered k bufferEnd (digitBytes q ++ text) ∧ k.registers .r8 = m.registers .r8 ∧
        k.registers .rsp = m.registers .rsp ∧ k.output = m.output := by
  induction q using Nat.strongRecOn with
  | ind q ih =>
  intro m text hplace hq hrax hrcx hbuffer hfits
  have hpointer := hbuffer.pointer
  rw [digitBytes_eq, List.length_append, List.length_singleton] at hfits
  have hhold : s.hold .rsi (m.registers .rsi - 1) = m.registers .rsi - 1 :=
    Space.hold_address hroom rfl (by omega) (by omega)
  have hlow : bufferEnd - 32 ≤ m.registers .rsi - 1 := by omega
  obtain ⟨k, hstays, hplace', hrax', hmemory, hrsi, hrcx', hr8, hrsp, hcomparison, houtput⟩ :=
    digit_turn hcode hplace hq hrax hrcx hhold hlow (by omega)
  have hbuffer' := hbuffer.cons hrsi hmemory
  have hjump : items[k.place]? = some (.instr (.jump .notZero (.printNext n))) :=
    hcode.line hplace' rfl
  rw [digitBytes_eq]
  by_cases hlast : q / 10 = 0
  · -- no digit is left
    have hnot : k.takes .notZero = false := by simp [Machine.takes, hcomparison, hlast]
    rw [if_pos hlast]
    exact ⟨k.next, hstays.trans (Stays.noJump hjump hnot), by rw [Machine.place_next, hplace'],
      ⟨hbuffer'.pointer, hbuffer'.bytes⟩, hr8, hrsp, houtput⟩
  · -- the digits in front of the last one are put by the turns to come
    have htaken : k.takes .notZero = true := by
      unfold Machine.takes
      rw [hcomparison, decide_eq_true_eq]
      exact Int.natCast_ne_zero.mpr hlast
    rw [if_neg hlast] at hfits ⊢
    have hback : Stays s items (bufferEnd - 32) bufferEnd k { k with place := place + 11 } :=
      Stays.jump hjump htaken (hcode.label (i := 11) rfl)
    obtain ⟨k', hstays', hplace'', hbuffer'', hr8', hrsp', houtput'⟩ :=
      ih (q / 10) (by omega) { k with place := place + 11 } _ rfl (by omega) hrax' hrcx'
        ⟨hbuffer'.pointer, hbuffer'.bytes⟩ (by rw [List.length_cons]; omega)
    refine ⟨k', hstays.trans (hback.trans hstays'), hplace'', ?_, hr8'.trans hr8, hrsp'.trans hrsp,
      houtput'.trans houtput⟩
    rw [List.append_assoc]
    exact hbuffer''

/-! ## The sign -/

/-- The sign of a word that is tested against itself. -/
theorem signed_toNat_and_self {w : Int} (h : 0 ≤ w) :
    signed ((w.toNat &&& w.toNat : Nat) : Int) = signed w := by
  rw [Nat.and_self, Int.toNat_of_nonneg h]

/-- A word that stands for a number that is not negative is that number. -/
theorem natAbs_signed_of_nonneg {w : Int} (hlow : 0 ≤ w) (hhigh : w < wordLimit)
    (h : 0 ≤ signed w) : ((signed w).natAbs : Int) = w := by
  unfold signed wordLimit at *
  split at h <;> omega

/-- The negative of a word that stands for a negative number is the magnitude of that number. -/
theorem natAbs_signed_of_neg {w : Int} (h : signed w < 0) :
    ((signed w).natAbs : Int) = -w % wordLimit := by
  unfold signed wordLimit at *
  split at h <;> omega

/-- A value that is not negative is its own magnitude; another one is negated. -/
theorem sign_off (bufferEnd : Int) {m : Machine} {w : Int} (hcode : Sits items place (printItems n))
    (hplace : m.place = place + 7) (hlow : 0 ≤ w) (hhigh : w < wordLimit)
    (hrax : m.registers .rax = w) (hcomparison : m.comparison = signed w) :
    ∃ k, Stays s items (bufferEnd - 32) bufferEnd m k ∧ k.place = place + 9 ∧
      k.registers .rax = ((signed w).natAbs : Int) ∧
      (∀ r, r ≠ .rax → k.registers r = m.registers r) ∧ k.memory = m.memory ∧
      k.output = m.output := by
  have hjump : items[m.place]? = some (.instr (.jump .notNegative (.printDigits n))) :=
    hcode.line hplace rfl
  by_cases hneg : signed w < 0
  · -- the jump is not taken, and the word is negated
    have hnegate : items[m.next.place]? = some (.instr (.neg .rax)) :=
      hcode.line (i := 8) (by rw [Machine.place_next, hplace]) rfl
    have hpassed : m.takes .notNegative = false := by simp [Machine.takes, hcomparison, hneg]
    refine ⟨_, (Stays.noJump hjump hpassed).trans (Stays.exec hnegate rfl ?_), ?_, ?_, ?_, rfl, rfl⟩
    · intro w hw
      cases hw
    · simp [hplace]
    · have hword : s.hold .rax (-w) = -w % wordLimit := Space.hold_word _ rfl
      simp [natAbs_signed_of_neg hneg, hrax, hword]
    · intro r hr
      simp [hr]
  · -- the jump leads over the negation
    have htaken : m.takes .notNegative = true := by simpa [Machine.takes, hcomparison] using hneg
    refine ⟨_, Stays.jump hjump htaken (hcode.label (i := 9) rfl), rfl, ?_, ?_, rfl, rfl⟩
    · rw [natAbs_signed_of_nonneg hlow hhigh (by omega)]
      exact hrax
    · intro r _
      rfl

/-- `startCode`: the straight code up to the first jump. -/
def startCode : List Instr :=
  [.mov (.reg .rax) (.mem .rsp none), .sub (.reg .rsp) (.imm 32), .lea .rsi .rsp 32, .dec .rsi,
    .mov (.byteMem .rsi) (.imm 10), .mov (.reg .r8) (.reg .rax), .test .rax .rax]

/-- `startCode` leaves the magnitude of the value in `rax`, its word in `r8`, and a line feed at the end of
    the buffer. -/
theorem print_start {m : Machine} {v : Int} (hcode : Sits items m.place (printItems n))
    (hvalue : signed (m.memory.load (m.registers .rsp) 8) = v)
    (hroom : s.Spans (m.registers .rsp - 32) (m.registers .rsp)) :
    ∃ k, Stays s items (m.registers .rsp - 32) (m.registers .rsp) m k ∧ k.place = m.place + 11 ∧
      k.registers .rax = (v.natAbs : Int) ∧ k.registers .rcx = 10 ∧ 0 ≤ k.registers .r8 ∧
      signed (k.registers .r8) = v ∧ k.registers .rsp = m.registers .rsp - 32 ∧
      Buffered k (m.registers .rsp) [10] ∧ k.output = m.output := by
  obtain ⟨hlow, hhigh⟩ := m.memory.load_bounds (m.registers .rsp)
  generalize hw : m.memory.load (m.registers .rsp) 8 = w at hlow hhigh hvalue
  have hrax : s.hold .rax w = w := Space.hold_of_word rfl hlow hhigh
  have hr8 : s.hold .r8 w = w := Space.hold_of_word rfl hlow hhigh
  have hrcx : s.hold .rcx 10 = 10 := Space.hold_of_word rfl (by decide) (by decide)
  have hrsp : s.hold .rsp (m.registers .rsp - 32) = m.registers .rsp - 32 :=
    Space.hold_address hroom rfl (by omega) (by omega)
  have hend : s.hold .rsi (m.registers .rsp) = m.registers .rsp :=
    Space.hold_address hroom rfl (by omega) (by omega)
  have hrsi : s.hold .rsi (m.registers .rsp - 1) = m.registers .rsp - 1 :=
    Space.hold_address hroom rfl (by omega) (by omega)
  have hbuffer : (32 : Int) % wordLimit = 32 := by decide
  have hfeed : (10 : Int) % wordLimit = 10 := by decide
  have hback : m.registers .rsp - 32 + 32 = m.registers .rsp := by omega
  have hmax : max w 0 = w := by omega
  -- the value is loaded, the buffer opened, a line feed put at its end, and the value kept and tested
  let m₁ := (m.set s .rax w).set s .rsp (m.registers .rsp - 32)
  let m₂ := (m₁.set s .rsi (m.registers .rsp)).set s .rsi (m.registers .rsp - 1)
  let m₃ := { (m₂.store (m.registers .rsp - 1) 10 1).set s .r8 w with comparison := v }
  have hexec : m.execAll s startCode = some m₃ := by
    simp [m₁, m₂, m₃, startCode, Machine.execAll, Machine.exec, Machine.write, Machine.read,
      Machine.address, hw, hrax, hrsp, hend, hrsi, hbuffer, hfeed, hback, hmax, hvalue]
  have hstores : m.storesAll s startCode = [(m.registers .rsp - 1, 1)] := by
    simp [startCode, Machine.storesAll, Machine.stored?, Machine.bytesAt?, Machine.exec, Machine.write,
      Machine.read, Machine.address, hrsp, hend, hrsi, hbuffer, hback]
  have hwithin : ∀ w ∈ m.storesAll s startCode,
      m.registers .rsp - 32 ≤ w.1 ∧ w.1 + (w.2 : Int) ≤ m.registers .rsp := by
    rw [hstores, List.forall_mem_singleton]
    omega
  have hfirst : Stays s items (m.registers .rsp - 32) (m.registers .rsp) m
      { m₃ with place := m.place + 7 } :=
    @Sits.stays s items _ m m₃ startCode _ _ hcode hexec hwithin
  obtain ⟨k, hstays, hplace, hmagnitude, hothers, hmemory, houtput⟩ :=
    sign_off (s := s) (m.registers .rsp) (m := { m₃ with place := m.place + 7 }) hcode rfl hlow hhigh
      (by simp [m₁, m₂, m₃, hrax]) (by simp [m₃, hvalue])
  have hlabel : items[k.place]? = some (.label (.printDigits n)) := hcode.line hplace rfl
  have hten : items[k.next.place]? = some (.instr (.mov (.reg .rcx) (.imm 10))) :=
    hcode.line (i := 10) (by rw [Machine.place_next, hplace]) rfl
  refine ⟨{ k.next.set s .rcx 10 with place := k.next.place + 1 },
    hfirst.trans (hstays.trans ((Stays.label hlabel).trans (Stays.exec hten ?_ ?_))), ?_, ?_, ?_, ?_, ?_, ?_, ?_,
    houtput⟩
  · simp [Machine.exec, Machine.write, Machine.read, hfeed]
  · intro w hw
    cases hw
  · simp [hplace]
  · simpa [hvalue] using hmagnitude
  · simpa using hrcx
  · simpa [hothers, m₃, hr8] using hlow
  · simpa [hothers, m₃, hr8] using hvalue
  · simp [hothers, m₃, m₂, m₁, hrsp]
  · refine ⟨?_, ?_⟩
    · simp [hothers, m₃, m₂, m₁, hrsi]
    · simp [hothers, m₃, m₂, m₁, hrsi, hmemory, Memory.bytes, Memory.store_byte, Memory.put_self]

/-- A minus goes in front of the digits of a negative value. -/
theorem sign_on {m : Machine} {v : Int} {text : List UInt8}
    (hcode : Sits items place (printItems n)) (hplace : m.place = place + 19)
    (hlow : 0 ≤ m.registers .r8) (hvalue : signed (m.registers .r8) = v)
    (hbuffer : Buffered m bufferEnd text) (hfits : text.length < 32)
    (hroom : s.Spans (bufferEnd - 32) bufferEnd) :
    ∃ k, Stays s items (bufferEnd - 32) bufferEnd m k ∧ k.place = place + 23 ∧
      Buffered k bufferEnd (if v < 0 then 45 :: text else text) ∧
      k.registers .rsp = m.registers .rsp ∧ k.output = m.output := by
  have hpointer := hbuffer.pointer
  have htest : items[m.place]? = some (.instr (.test .r8 .r8)) := hcode.line hplace rfl
  have hexec : m.exec s (.test .r8 .r8) = some { m with comparison := v } := by
    simp only [Machine.exec, signed_toNat_and_self hlow, hvalue]
  have hfirst : Stays s items (bufferEnd - 32) bufferEnd m
      { m with comparison := v, place := m.place + 1 } := by
    apply Stays.exec htest hexec
    intro w hw
    cases hw
  have hjump : items[m.place + 1]? = some (.instr (.jump .notNegative (.printWrite n))) :=
    hcode.line (i := 20) (by rw [hplace]) rfl
  by_cases hneg : v < 0
  · -- a negative value: one more byte, below the digits
    have hhold : s.hold .rsi (m.registers .rsi - 1) = m.registers .rsi - 1 :=
      Space.hold_address hroom rfl (by omega) (by omega)
    have hminus : (45 : Int) % wordLimit = 45 := by decide
    let m₁ : Machine := { m with comparison := v, place := m.place + 1 + 1 }
    have hcode₁ : Sits items m₁.place
        ([.dec .rsi, .mov (.byteMem .rsi) (.imm 45)].map Item.instr ++ (printItems n).drop 23) := by
      show Sits items (m.place + 1 + 1) _
      rw [hplace]
      exact hcode.drop 21
    have hexec₁ : m₁.execAll s [.dec .rsi, .mov (.byteMem .rsi) (.imm 45)] =
        some ((m₁.set s .rsi (m.registers .rsi - 1)).store (m.registers .rsi - 1) 45 1) := by
      simp [m₁, Machine.execAll, Machine.exec, Machine.write, Machine.read, Machine.address, hhold,
        hminus]
    have hstores : m₁.storesAll s [.dec .rsi, .mov (.byteMem .rsi) (.imm 45)] =
        [(m.registers .rsi - 1, 1)] := by
      simp [m₁, Machine.storesAll, Machine.stored?, Machine.bytesAt?, Machine.exec, Machine.write,
        Machine.read, Machine.address, hhold]
    have hwithin : ∀ w ∈ m₁.storesAll s [.dec .rsi, .mov (.byteMem .rsi) (.imm 45)],
        bufferEnd - 32 ≤ w.1 ∧ w.1 + (w.2 : Int) ≤ bufferEnd := by
      rw [hstores, List.forall_mem_singleton]
      omega
    refine ⟨_, hfirst.trans ((Stays.noJump hjump ?_).trans (hcode₁.stays hexec₁ hwithin)), ?_, ?_, ?_, rfl⟩
    · simp [Machine.takes, hneg]
    · simp [m₁, hplace]
    · rw [if_pos hneg]
      exact hbuffer.cons (by simp [hhold]) rfl
    · simp [m₁]
  · refine ⟨_, hfirst.trans (Stays.jump hjump ?_ (hcode.label (i := 23) rfl)), rfl, ?_, rfl, rfl⟩
    · simpa [Machine.takes] using hneg
    · rw [if_neg hneg]
      exact ⟨hbuffer.pointer, hbuffer.bytes⟩

/-! ## The call -/

/-- `callCode`: the straight code between the label in front of the call and the call. -/
def callCode : List Instr :=
  [.mov (.reg .rax) (.imm 1), .mov (.reg .rdi) (.imm 1), .lea .rdx .rsp 32, .sub (.reg .rdx) (.reg .rsi)]

/-- `callCode` and the call write the bytes of the buffer and give the buffer back. -/
theorem print_write {m : Machine} {text : List UInt8}
    (hcode : Sits items place (printItems n)) (hplace : m.place = place + 23)
    (hbuffer : Buffered m bufferEnd text) (hfits : text.length ≤ 32)
    (hrsp : m.registers .rsp = bufferEnd - 32) (hroom : s.Spans (bufferEnd - 32) bufferEnd) :
    ∃ k, Stays s items (bufferEnd - 32) bufferEnd m k ∧ k.place = place + 30 ∧
      k.registers .rsp = bufferEnd ∧ k.output = m.output ++ text := by
  have hpointer := hbuffer.pointer
  have hlabel : items[m.place]? = some (.label (.printWrite n)) := hcode.line hplace rfl
  have hcode₁ : Sits items m.next.place (callCode.map Item.instr ++ (printItems n).drop 28) := by
    rw [Machine.place_next, hplace]
    exact hcode.drop 24
  -- the length is the distance from `rsi` to the end of the buffer, also where addresses wrap
  have hlength : s.hold .rdx (s.hold .rdx bufferEnd - m.registers .rsi) = (text.length : Int) := by
    have hword : (text.length : Int) % wordLimit = (text.length : Int) :=
      Int.emod_eq_of_lt (by omega) (by unfold wordLimit; omega)
    rw [Space.hold_word _ rfl, Space.hold_word _ rfl, Int.emod_sub_emod, hpointer, ← hword]
    congr 1
    omega
  have hone : ∀ r : Register, r.holdsAddress = false → s.hold r 1 = 1 := fun r hr =>
    Space.hold_of_word hr (by decide) (by decide)
  have hback : m.registers .rsp + 32 = bufferEnd := by omega
  have hbuffer' : (32 : Int) % wordLimit = 32 := by decide
  have hconstant : (1 : Int) % wordLimit = 1 := by decide
  let m₁ := (m.next.set s .rax 1).set s .rdi 1
  let m₂ := (m₁.set s .rdx bufferEnd).set s .rdx (s.hold .rdx bufferEnd - m.registers .rsi)
  have hexec : m.next.execAll s callCode = some m₂ := by
    simp [m₁, m₂, callCode, Machine.execAll, Machine.exec, Machine.write, Machine.read,
      Machine.address, hback, hconstant]
  let m₃ : Machine := { m₂ with place := m.place + 1 + 4 }
  have hcall : items[m₃.place]? = some (.instr .syscall) :=
    hcode.line (i := 28) (by show m.place + 1 + 4 = _; rw [hplace]) rfl
  let m₄ := ({ m₃ with output := m.output ++ text }.set s .rax (text.length : Int)).next
  have hwrites : m₃.step s items = .goes m₄ := by
    have hrdx : m₃.registers .rdx = (text.length : Int) := by simp [m₃, m₂, hlength]
    have hrsi : m₃.registers .rsi = m.registers .rsi := by simp [m₃, m₂, m₁]
    have hrax : m₃.registers .rax = 1 := by simp [m₃, m₂, m₁, hone .rax rfl]
    have hrdi : m₃.registers .rdi = 1 := by simp [m₃, m₂, m₁, hone .rdi rfl]
    have hbytes : m₃.memory.bytes (m.registers .rsi) text.length = text := hbuffer.bytes
    unfold Machine.step
    rw [hcall]
    simp only [Machine.call, hrax, hrdi, hrdx, hrsi, Int.toNat_natCast, hbytes]
    rfl
  have hadd : items[m₄.place]? = some (.instr (.add (.reg .rsp) (.imm 32))) :=
    hcode.line (i := 29) (by show m.place + 1 + 4 + 1 = _; rw [hplace]) rfl
  have hrsp₄ : m₄.registers .rsp = m.registers .rsp := by simp [m₄, m₃, m₂, m₁]
  have hlast : m₄.exec s (.add (.reg .rsp) (.imm 32)) = some (m₄.set s .rsp bufferEnd) := by
    simp [Machine.exec, Machine.write, Machine.read, hrsp₄, hbuffer', hback]
  refine ⟨_, (Stays.label hlabel).trans ((hcode₁.stays hexec ?_).trans
    ((Stays.call hcall hwrites).trans (Stays.exec hadd hlast ?_))), ?_, ?_, rfl⟩
  · have hstores : m.next.storesAll s callCode = [] := by
      simp [callCode, Machine.storesAll, Machine.stored?, Machine.bytesAt?, Machine.exec, Machine.write]
    intro w hw
    rw [hstores] at hw
    cases hw
  · intro w hw
    cases hw
  · show m.place + 1 + 4 + 1 + 1 = _
    omega
  · show s.hold .rsp bufferEnd = bufferEnd
    exact Space.hold_address hroom rfl (by omega) (Int.le_refl _)

/-! ## The whole sequence -/

/-- A digit is one byte. -/
theorem utf8EncodeChar_of_isDigit {c : Char} (h : c.isDigit = true) :
    String.utf8EncodeChar c = [byteOf c] := by
  have hsize : c.utf8Size = 1 := by
    simp only [Char.isDigit, Bool.and_eq_true, decide_eq_true_eq, UInt32.le_iff_toNat_le] at h
    unfold Char.utf8Size
    rw [if_pos (UInt32.le_iff_toNat_le.mpr (Nat.le_trans h.2 (by decide)))]
  rw [String.utf8EncodeChar_eq_singleton hsize]
  rfl

theorem bytesOf_printedLine (v : Int) : bytesOf (printedLine v) =
    if v < 0 then 45 :: (digitBytes v.natAbs ++ [10]) else digitBytes v.natAbs ++ [10] := by
  have hdigits : (Nat.toDigits 10 v.natAbs).flatMap String.utf8EncodeChar = digitBytes v.natAbs := by
    unfold digitBytes
    rw [List.map_eq_flatMap, List.flatMap_def, List.flatMap_def]
    congr 1
    refine List.map_congr_left fun c hc => ?_
    exact utf8EncodeChar_of_isDigit (Text.isDigit_toDigits _ _ hc)
  have hfeed : "\n".toList.flatMap String.utf8EncodeChar = [10] := by decide
  unfold bytesOf printedLine
  rw [String.toList_append, List.flatMap_append, hfeed, Text.toList_decimal]
  split
  · rw [List.flatMap_cons, hdigits]
    rfl
  · rw [hdigits]

/-- `digitBytes` of a signed number are at most twenty. -/
theorem length_digitBytes_le {v : Int} (h : IsSigned v) : (digitBytes v.natAbs).length ≤ 20 := by
  unfold digitBytes IsSigned at *
  rw [List.length_map, Nat.length_toDigits_le_iff (by decide) (by decide)]
  omega

/-- `printItems` write the value on top of the stack on a line of its own.  They leave `rsp` as it is, and
    store nothing outside their buffer. -/
theorem print_stays {m : Machine} {v : Int} (hcode : Sits items m.place (printItems n))
    (hvalue : signed (m.memory.load (m.registers .rsp) 8) = v)
    (hroom : s.Spans (m.registers .rsp - 32) (m.registers .rsp)) :
    ∃ k, Stays s items (m.registers .rsp - 32) (m.registers .rsp) m k ∧
      k.place = m.place + (printItems n).length ∧ k.registers .rsp = m.registers .rsp ∧
      k.output = m.output ++ bytesOf (printedLine v) := by
  have hsigned : IsSigned v := by rw [← hvalue]; exact signed_bounds _
  have hlength := length_digitBytes_le hsigned
  obtain ⟨hmin, hmax⟩ := hsigned
  obtain ⟨m₁, hstays₁, hplace₁, hrax₁, hrcx₁, hlow₁, hvalue₁, hrsp₁, hbuffer₁, houtput₁⟩ :=
    print_start hcode hvalue hroom
  obtain ⟨m₂, hstays₂, hplace₂, hbuffer₂, hr8₂, hrsp₂, houtput₂⟩ :=
    digit_loop hcode hroom v.natAbs m₁ [10] hplace₁ (by unfold wordLimit; omega) hrax₁ hrcx₁ hbuffer₁
      (by rw [List.length_singleton]; omega)
  rw [← hr8₂] at hlow₁ hvalue₁
  have hlength₂ : (digitBytes v.natAbs ++ [10]).length ≤ 21 := by
    rw [List.length_append, List.length_singleton]
    omega
  obtain ⟨m₃, hstays₃, hplace₃, hbuffer₃, hrsp₃, houtput₃⟩ :=
    sign_on hcode hplace₂ hlow₁ hvalue₁ hbuffer₂ (by omega) hroom
  rw [← bytesOf_printedLine] at hbuffer₃
  have hlength₃ : (bytesOf (printedLine v)).length ≤ 32 := by
    rw [bytesOf_printedLine]
    split
    · rw [List.length_cons]
      omega
    · omega
  obtain ⟨m₄, hstays₄, hplace₄, hrsp₄, houtput₄⟩ :=
    print_write hcode hplace₃ hbuffer₃ hlength₃ (hrsp₃.trans (hrsp₂.trans hrsp₁)) hroom
  refine ⟨m₄, hstays₁.trans (hstays₂.trans (hstays₃.trans hstays₄)), hplace₄, hrsp₄, ?_⟩
  rw [houtput₄, houtput₃, houtput₂, houtput₁]

/-- `printItems` write the value on top of the stack on a line of its own, and leave the stack as it is. -/
theorem print_reaches {m : Machine} {top v : Int} {values : List Int}
    (hcode : Sits items m.place (printItems n))
    (hstack : OnStack m.memory (m.registers .rsp) top (v :: values))
    (hroom : s.Spans (m.registers .rsp - 32) top) :
    ∃ k, Reaches s items m k ∧ k.place = m.place + (printItems n).length ∧
      OnStack k.memory (k.registers .rsp) top (v :: values) ∧
      k.registers .rsp = m.registers .rsp ∧ k.output = m.output ++ bytesOf (printedLine v) := by
  obtain ⟨k, hstays, hplace, hrsp, houtput⟩ :=
    print_stays hcode hstack.load_top (hroom.mono (Int.le_refl _) hstack.le_top)
  refine ⟨k, hstays.reaches, hplace, ?_, hrsp, houtput⟩
  rw [hrsp]
  exact hstack.congr fun x hlow _ => hstays.memory (.inr hlow)

end ZebLang
