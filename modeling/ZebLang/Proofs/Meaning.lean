/-
  What programs mean.

  A value is a signed number of 64 bits.  Operands are evaluated from left to right, and what printing
  puts out on the way comes in this order.  Sums, differences and products keep their lowest 64 bits.
  A range has the last number counted below its bound as its value; printing has the value printed.

  An assignment and a loop bind a name to a value, and later statements see the latest binding of a
  name.  An exit ends the program: no later statement is evaluated.

  What has no meaning has no value: a name that is not bound, an operator or a function that is not
  known, anything that is not a statement where a statement has to stand.
-/

import ZebLang.Datum
import ZebLang.Text.Decimal

namespace ZebLang

/-! ## Words -/

/-- `wordLimit`: words are the numbers from zero up to this one, which is left out. -/
def wordLimit : Int := 18446744073709551616

/-- `signed n`: the signed number that the lowest 64 bits of `n` stand for. -/
def signed (n : Int) : Int :=
  if n % wordLimit < 9223372036854775808 then n % wordLimit else n % wordLimit - wordLimit

/-- `IsSigned n`: a signed number that fits a register. -/
def IsSigned (n : Int) : Prop := -9223372036854775808 ≤ n ∧ n < 9223372036854775808

theorem signed_bounds (n : Int) : IsSigned (signed n) := by
  unfold IsSigned signed wordLimit
  split <;> omega

/-- `signed` keeps a number that fits. -/
theorem signed_of_isSigned {n : Int} (h : IsSigned n) : signed n = n := by
  unfold IsSigned at h
  unfold signed wordLimit
  split <;> omega

/-- `signed` depends on the lowest 64 bits only. -/
theorem signed_emod (n : Int) : signed (n % wordLimit) = signed n := by
  unfold signed
  rw [Int.emod_emod]

/-- `signed` keeps the lowest 64 bits. -/
theorem emod_signed (n : Int) : signed n % wordLimit = n % wordLimit := by
  unfold signed wordLimit
  split <;> omega

/-- `signed` reads numbers with the same lowest 64 bits the same. -/
theorem signed_congr {a b : Int} (h : a % wordLimit = b % wordLimit) : signed a = signed b := by
  rw [← signed_emod a, h, signed_emod]

/-! ## Expressions -/

/-- `lastBelow bound`: the last number that is counted below a bound, or zero. -/
def lastBelow (bound : Int) : Int := max (bound - 1) 0

/-- `printedLine v`: the line that is printed for a value. -/
def printedLine (v : Int) : String := Text.decimal v ++ "\n"

/-- `combine? operator a b`: two values combined by an operator. -/
def combine? (operator : String) (a b : Int) : Option Int :=
  if operator = "+" then some (signed (a + b))
  else if operator = "-" then some (signed (a - b))
  else if operator = "*" then some (signed (a * b))
  else none

/-- `builtin? function v`: the value of a function at a value, and what it prints. -/
def builtin? (function : String) (v : Int) : Option (Int × String) :=
  if function = "print" then some (v, printedLine v)
  else if function = "range" then some (lastBelow v, "")
  else none

/-- `Bindings`: bound names with their values, the latest binding first. -/
abbrev Bindings := List (String × Int)

/-- `valueOf bindings d`: the value of an expression, and what it prints. -/
def valueOf (bindings : Bindings) : Datum → Option (Int × String)
  | .literal _ (.int n) => some (n, "")
  | .reference _ (.text name) => (bindings.lookup name).map fun v => (v, "")
  | .binary _ left (.text operator) right => do
      let (a, first) ← valueOf bindings left
      let (b, second) ← valueOf bindings right
      let v ← combine? operator a b
      return (v, first ++ second)
  | .call _ (.text function) argument => do
      let (a, first) ← valueOf bindings argument
      let (v, second) ← builtin? function a
      return (v, first ++ second)
  | _ => none

/-! ## Programs -/

/-- `Outcome`: what a program comes to. -/
structure Outcome where
  /-- All that was printed. -/
  output : String
  bindings : Bindings
  /-- The value of the exit that ended the program, if one did. -/
  status : Option Int
  deriving DecidableEq, Repr

/-- `o.after printed`: the outcome with something printed before it. -/
def Outcome.after (o : Outcome) (printed : String) : Outcome := { o with output := printed ++ o.output }

/-- `evaluate bindings statements`: the outcome of a statement list. -/
def evaluate (bindings : Bindings) : List Datum → Option Outcome
  | [] => some ⟨"", bindings, none⟩
  | .exit _ e :: _ => do
      let (v, printed) ← valueOf bindings e
      return ⟨printed, bindings, some v⟩
  | .assign _ (.text name) e :: rest | .loop _ (.text name) e :: rest => do
      let (v, printed) ← valueOf bindings e
      return (← evaluate ((name, v) :: bindings) rest).after printed
  | _ => none

end ZebLang
