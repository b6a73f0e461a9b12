/-
  Integers as text.

  Decimal digits stand most significant first and without leading zeros; zero is `0` and a negative
  number carries one `-`.  Text of more than `digitLimit` digits is neither read nor written, so the
  cost of a number is bounded by the text that mentions it.  Hexadecimal text serves character codes.
-/

namespace ZebLang.Text

/-- The longest decimal text, counted in digits, that is read or written. -/
def digitLimit : Nat := 4300

/-- The decimal digits of a natural number. -/
def natural (n : Nat) : String := String.ofList (Nat.toDigits 10 n)

/-- The decimal text of an integer. -/
def decimal : Int → String
  | .ofNat n => natural n
  | .negSucc n => "-" ++ natural (n + 1)

/-- A number has `digitCount n` decimal digits; the sign is not counted. -/
def digitCount (n : Int) : Nat := (Nat.toDigits 10 n.natAbs).length

/-- The decimal text of an integer, unless it has more digits than may be written. -/
def decimal? (n : Int) : Option String :=
  if digitCount n ≤ digitLimit then some (decimal n) else none

/-- Hexadecimal digits in lower case, filled with zeros on the left up to `width`. -/
def hex (width n : Nat) : String := String.ofList ((Nat.toDigits 16 n).leftpad width '0')

/-- Hexadecimal digits in upper case, filled with zeros on the left up to `width`. -/
def hexUpper (width n : Nat) : String :=
  String.ofList (((Nat.toDigits 16 n).leftpad width '0').map Char.toUpper)

/-- The value of one digit in any base up to sixteen; both cases of a letter count the same. -/
def digitValue (c : Char) : Nat :=
  if c.isDigit then c.toNat - '0'.toNat
  else if 'a' ≤ c ∧ c ≤ 'f' then c.toNat - 'a'.toNat + 10
  else if 'A' ≤ c ∧ c ≤ 'F' then c.toNat - 'A'.toNat + 10
  else 0

/-- The positional value of digits in `base`, most significant first. -/
def ofDigits (base : Nat) (digits : List Char) : Nat :=
  digits.foldl (fun n c => n * base + digitValue c) 0

end ZebLang.Text
