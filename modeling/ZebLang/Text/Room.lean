/-
  How much room there is for a text.

  Some messages leave a name only so many bytes, counted in UTF-8.  A longer name is cut there, and a
  character that the cut goes through is shown by the replacement character.

  A text that is asked for by its length has limits of another size: it cannot have more characters
  than a signed 64-bit register counts, and long before that there may be no memory for it.  Where that
  begins is a matter of the machine at hand, so it is given (`Memory`).
-/

namespace ZebLang.Text

/-- The greatest number of characters that a text can have. -/
def lengthLimit : Int := 9223372036854775807

/-- The lengths of the texts for which a machine has memory.  There is always room for the empty text. -/
structure Memory where
  holds : Nat → Bool
  holds_zero : holds 0 = true

/-- As many characters as the room holds, and a mark for one that it holds only in part. -/
def clipChars (room : Nat) : List Char → List Char
  | [] => []
  | c :: rest =>
      if c.utf8Size ≤ room then c :: clipChars (room - c.utf8Size) rest
      else if room = 0 then []
      else ['\uFFFD']

/-- A text cut to `room` bytes. -/
def clip (room : Nat) (text : String) : String := String.ofList (clipChars room text.toList)

end ZebLang.Text
