/-
  Options of the compiler, and how the environment sets them.
-/

import ZebLang.Text.Blank

namespace ZebLang

/-- Options of the compiler. -/
structure Options where
  /-- Whether the assembly repeats each statement in a comment. -/
  comments : Bool := false
  deriving DecidableEq, Repr

/-- Words that turn an option on. -/
def isAffirmative (word : String) : Bool :=
  let word := Text.lower (Text.trim word)
  word = "1" || word = "true" || word = "yes" || word = "on"

/-- The options that the value of the environment variable `ZEB_COMMENTS` stands for, if it is set. -/
def Options.ofEnvironment (setting : Option String) : Options :=
  { comments := setting.any isAffirmative }

end ZebLang
