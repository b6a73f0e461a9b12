/-
  Data as numbers.

  Integers, reals and truth values are numbers; a truth value counts as zero or one.  Nothing else can
  be compared with a number or has a negative.
-/

import ZebLang.Datum
import ZebLang.Text.Real

namespace ZebLang.Datum

/-- The integer value of a truth value or an integer. -/
def integer? : Datum → Option Int
  | truth value => some (if value then 1 else 0)
  | int value => some value
  | _ => Option.none

/-- Whether a number lies between two integers, ends included. -/
def between? (low high : Int) : Datum → Option Bool
  | real shown => some (Text.realBetween low high shown)
  | d => d.integer?.map fun n => low ≤ n && n ≤ high

/-- The negative of a number.  That of a truth value is an integer. -/
def negated? : Datum → Option Datum
  | real shown => some (real (Text.negatedReal shown))
  | d => d.integer?.map fun n => int (-n)

end ZebLang.Datum
