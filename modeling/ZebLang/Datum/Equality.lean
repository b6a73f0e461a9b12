/-
  When two trees say the same.

  Nodes are equal when they have the same kind and equal fields; their places do not count.  A node
  with a title of its own is one of a kind and equals no other.  Numbers are equal by value, whatever
  their type: a truth value counts as zero or one, and a real equals the integer that it stands for.
-/

import ZebLang.Datum.Number

namespace ZebLang.Datum

/-- Equality of data that are neither lists nor nodes. -/
def sameAtom : Datum → Datum → Bool
  | .none, .none => true
  | text a, text b => a == b
  | real a, real b => Text.sameReal a b
  | real a, b => b.integer?.any fun n => Text.wholeValue? a == some n
  | a, real b => a.integer?.any fun n => Text.wholeValue? b == some n
  | a, b => a.integer?.any fun n => b.integer? == some n

/-- Whether neither node has a title of its own. -/
def untitled (s t : Tag Datum) : Bool := s.title.isNone && t.title.isNone

mutual

/-- Whether two data are equal. -/
def same : Datum → Datum → Bool
  | list xs, list ys => sameAll xs ys
  | bare s j, bare t k => untitled s t && j == k
  | program s xs, program t ys => untitled s t && sameAll xs ys
  | exit s e, exit t f => untitled s t && same e f
  | assign s n e, assign t m f => untitled s t && same n m && same e f
  | loop s n e, loop t m f => untitled s t && same n m && same e f
  | endLoop s, endLoop t => untitled s t
  | literal s v, literal t w => untitled s t && same v w
  | reference s n, reference t m => untitled s t && same n m
  | binary s l o r, binary t l' o' r' => untitled s t && same l l' && same o o' && same r r'
  | call s n a, call t m b => untitled s t && same n m && same a b
  | a, b => sameAtom a b

/-- Whether two lists have equal items in the same order. -/
def sameAll : List Datum → List Datum → Bool
  | [], [] => true
  | x :: xs, y :: ys => same x y && sameAll xs ys
  | _, _ => false

end

end ZebLang.Datum
