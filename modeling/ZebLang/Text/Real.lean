/-
  Real numbers as text, and the whole number a text stands for.

  A real is kept as its shortest decimal text (`1.5`, `-0.0`, `1e+16`, `inf`, `nan`).  The number that
  such a text stands for is the nearest one with 53 significant bits, so a large text may stand for a
  whole number that differs from its digits: `1e+23` is 99999999999999991611392.  Texts of the words
  `inf` and `nan` have no whole part.
-/

import ZebLang.Text.Decimal

namespace ZebLang.Text

/-- The nearest natural number with at most `bits` significant bits; a tie goes to the even one. -/
def roundToBits (bits n : Nat) : Nat :=
  let length := n.log2 + 1
  if length ≤ bits then n
  else
    let unit := Nat.pow 2 (length - bits)
    let quotient := n / unit
    let twice := 2 * (n % unit)
    let up := unit < twice || (twice = unit && quotient % 2 = 1)
    (if up then quotient + 1 else quotient) * unit

/-- An exponent: digits after a sign, or none at all. -/
def exponentOf : List Char → Int
  | '-' :: digits => -(ofDigits 10 digits : Int)
  | '+' :: digits => ofDigits 10 digits
  | digits => ofDigits 10 digits

/-- The whole part of unsigned decimal text, and whether it leaves something over. -/
def wholePart? (text : List Char) : Option (Nat × Bool) :=
  let head := text.takeWhile (· != 'e')
  let whole := head.takeWhile (· != '.')
  let fraction := (head.dropWhile (· != '.')).drop 1
  let exponent := exponentOf ((text.dropWhile (· != 'e')).drop 1) - fraction.length
  let digits := whole ++ fraction
  if digits.isEmpty || !digits.all Char.isDigit then none
  else
    let n := ofDigits 10 digits
    if 0 ≤ exponent then some (roundToBits 53 (n * Nat.pow 10 exponent.toNat), false)
    else
      let unit := Nat.pow 10 (-exponent).toNat
      if n % unit = 0 then some (roundToBits 53 (n / unit), false) else some (n / unit, true)

/-- The natural number that unsigned decimal text stands for, if it is whole. -/
def wholeMagnitude? (text : List Char) : Option Nat :=
  match wholePart? text with
  | some (n, false) => some n
  | _ => none

/-- The integer that the text of a real stands for, if it stands for one. -/
def wholeValue? (text : String) : Option Int :=
  match text.toList with
  | '-' :: rest => (wholeMagnitude? rest).map fun n => -(n : Int)
  | rest => (wholeMagnitude? rest).map fun n => (n : Int)

/-- Two texts stand for the same real: the same text, or both zero.  Nothing equals `nan`. -/
def sameReal (a b : String) : Bool :=
  (a == b && a != "nan") || (wholeValue? a == some 0 && wholeValue? b == some 0)

/-- Whether a real lies between two integers, ends included.  `nan` lies nowhere. -/
def realBetween (low high : Int) (text : String) : Bool :=
  match text.toList with
  | '-' :: rest =>
      match wholePart? rest with
      | some (n, false) => low ≤ -(n : Int) && -(n : Int) ≤ high
      | some (n, true) => low < -(n : Int) && -(n : Int) ≤ high
      | none => false
  | rest =>
      match wholePart? rest with
      | some (n, false) => low ≤ (n : Int) && (n : Int) ≤ high
      | some (n, true) => low ≤ (n : Int) && (n : Int) < high
      | none => false

/-- The text of the negative of a real.  `nan` has no sign. -/
def negatedReal (text : String) : String :=
  if text = "nan" then text
  else
    match text.toList with
    | '-' :: rest => String.ofList rest
    | rest => String.ofList ('-' :: rest)

end ZebLang.Text
