/-
  White space at the ends of a text.

  `isBlank` is the property "white space" of Unicode together with the four information separators.
-/

namespace ZebLang.Text

/-- White space of every script. -/
def isBlank (c : Char) : Bool :=
  let n := c.toNat
  (0x09 ≤ n && n ≤ 0x0d) || (0x1c ≤ n && n ≤ 0x20) || n = 0x85 || n = 0xa0 || n = 0x1680 ||
  (0x2000 ≤ n && n ≤ 0x200a) || n = 0x2028 || n = 0x2029 || n = 0x202f || n = 0x205f || n = 0x3000

/-- A text without the white space at its two ends. -/
def trim (text : String) : String :=
  String.ofList ((text.toList.dropWhile isBlank).reverse.dropWhile isBlank).reverse

/-- Lower case for the letters `A` to `Z`; no other character of a word that is compared with an
    English word can become one of its letters. -/
def lower (text : String) : String := String.ofList (text.toList.map Char.toLower)

end ZebLang.Text
