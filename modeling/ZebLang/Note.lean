/-
  What the compiler notes down while it works, in the order in which it happens.

  A note says nothing that the results do not show; it is printed only on demand, one line each.
-/

import ZebLang.Text.Decimal

namespace ZebLang

/-- A step of the compiler that is worth a note. -/
inductive Note where
  | lowering (typeName : String) (depth : Nat)
  | minted (loop : Nat)
  | generated (statements depth loops : Nat)
  | failed (file message : String)
  | compiled (file : String) (tokens statements : Nat)
  deriving DecidableEq, Repr

/-- A note as one line of a log. -/
def Note.text : Note → String
  | lowering typeName depth =>
      "DEBUG: zebc.lang.codegen: lowering " ++ typeName ++ " at depth " ++ Text.natural depth
  | minted loop =>
      "DEBUG: zebc.lang.codegen: minted loop labels loop" ++ Text.natural loop ++ "/exit" ++
        Text.natural loop
  | generated statements depth loops =>
      "DEBUG: zebc.lang.codegen: generated " ++ Text.natural statements ++
        " statements, final depth " ++ Text.natural depth ++ ", " ++ Text.natural loops ++ " loops"
  | failed file message =>
      "DEBUG: zebc.lang.compiler: compilation of " ++ file ++ " failed: " ++ message
  | compiled file tokens statements =>
      "DEBUG: zebc.lang.compiler: compiled " ++ file ++ ": " ++ Text.natural tokens ++ " tokens, " ++
        Text.natural statements ++ " statements"

end ZebLang
