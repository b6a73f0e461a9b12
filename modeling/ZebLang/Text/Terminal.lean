/-
  Texts for a terminal.

  A control sequence is an escape character, an opening bracket, any number of digits, semicolons and
  question marks, and one letter.  What is printed for the user has none: each is left out, whatever
  it would do.  An escape character that starts no such sequence stays, and what is left is not
  searched again, so the parts around a sequence never make a new one.
-/

namespace ZebLang.Text

/-- The characters between the bracket and the letter of a control sequence. -/
def isControlParameter (c : Char) : Bool := c.isDigit || c = ';' || c = '?'

/-- What follows a control sequence whose escape character stands right before the text. -/
def afterControl? : List Char → Option (List Char)
  | '[' :: rest =>
      match rest.dropWhile isControlParameter with
      | letter :: after => if letter.isAlpha then some after else none
      | [] => none
  | _ => none

/-- A control sequence takes characters away. -/
theorem length_afterControl? {text after : List Char} (h : afterControl? text = some after) :
    after.length < text.length := by
  unfold afterControl? at h
  split at h
  · rename_i rest
    have hdrop := (List.dropWhile_sublist isControlParameter (l := rest)).length_le
    split at h
    · rename_i letter tail heq
      rw [heq] at hdrop
      split at h
      · cases h
        simp only [List.length_cons] at hdrop ⊢
        omega
      · cases h
    · cases h
  · cases h

/-- The characters outside all control sequences. -/
def visibleChars : List Char → List Char
  | [] => []
  | c :: rest =>
      if c = '\x1b' then
        match h : afterControl? rest with
        | some after =>
            have := length_afterControl? h
            visibleChars after
        | none => c :: visibleChars rest
      else c :: visibleChars rest
termination_by text => text.length
decreasing_by
  all_goals simp only [List.length_cons]; omega

/-- A text without its control sequences. -/
def visible (text : String) : String := String.ofList (visibleChars text.toList)

end ZebLang.Text
