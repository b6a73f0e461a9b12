/-
  Text in quotation marks.

  Single quotes stand around the text, unless it holds a single quote and no double quote.  The mark
  in use and the backslash are written after a backslash, tab, line feed and carriage return by their
  letters, and every other unprintable character by its code in two, four or eight digits.
-/

import ZebLang.Text.Decimal
import ZebLang.Text.Printable

namespace ZebLang.Text

/-- The mark that goes around a text. -/
def quoteMark (text : List Char) : Char :=
  if text.contains '\x27' && !text.contains '\x22' then '\x22' else '\x27'

/-- One character between quotation marks `mark`. -/
def escapeChar (mark c : Char) : List Char :=
  if c = mark || c = '\x5c' then ['\x5c', c]
  else if c = '\t' then ['\x5c', 't']
  else if c = '\n' then ['\x5c', 'n']
  else if c = '\r' then ['\x5c', 'r']
  else if isPrintable c then [c]
  else if c.toNat < 0x100 then '\x5c' :: 'x' :: (hex 2 c.toNat).toList
  else if c.toNat < 0x10000 then '\x5c' :: 'u' :: (hex 4 c.toNat).toList
  else '\x5c' :: 'U' :: (hex 8 c.toNat).toList

/-- A text in quotation marks. -/
def quoted (text : String) : String :=
  let mark := quoteMark text.toList
  String.ofList (mark :: text.toList.flatMap (escapeChar mark) ++ [mark])

end ZebLang.Text
