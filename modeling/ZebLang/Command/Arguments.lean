/-
  The words of a command line.

  Options and the input file may come in any order, and `--` ends the options.  Short options combine
  in one word, and `-o` takes the rest of its word, or the next word whatever it looks like; a long
  option takes a value after `=` as well.

  Wrong words are found from left to right.  After that, `--help` and `--version` come first, then the
  checks of the values in the order of their options, then the input file, then words too many.
-/

import ZebLang.Text.Quoted
import ZebLang.Text.Similar

namespace ZebLang.Command

/-- Options without a value. -/
inductive Flag where
  | tokens
  | ast
  | comments
  | verbose
  | version
  | help
  deriving DecidableEq, Repr

/-- An option as it was mentioned. -/
inductive Mention where
  | flag (f : Flag)
  | output (path : String)
  deriving DecidableEq, Repr

/-- A command line that cannot be followed.  Some messages come with a word on the usage. -/
structure UsageError where
  message : String
  withUsage : Bool := true
  deriving DecidableEq, Repr

/-- A command line, sorted: the options in the order of their mention, and the other words. -/
structure Words where
  mentions : List Mention
  others : List String
  deriving DecidableEq, Repr

/-! ## Names of options -/

/-- The long names. -/
def longNames : List String :=
  ["--output", "--tokens", "--ast", "--comments", "--verbose", "--version", "--help"]

/-- What a long name stands for: a flag, or `none` for the option that takes a value. -/
def longOption? (name : String) : Option (Option Flag) :=
  if name = "--output" then some none
  else if name = "--tokens" then some (some .tokens)
  else if name = "--ast" then some (some .ast)
  else if name = "--comments" then some (some .comments)
  else if name = "--verbose" then some (some .verbose)
  else if name = "--version" then some (some .version)
  else if name = "--help" then some (some .help)
  else none

/-- What a letter stands for: a flag, or `none` for the option that takes a value. -/
def shortOption? (letter : Char) : Option (Option Flag) :=
  if letter = 'o' then some none
  else if letter = 'c' then some (some .comments)
  else if letter = 'v' then some (some .verbose)
  else none

/-! ## Complaints -/

/-- An option that there is not, and the names that look like it. -/
def noSuchOption (name : String) (similar : List String) : UsageError :=
  let head := "No such option: " ++ name
  match similar with
  | [] => { message := head }
  | [one] => { message := head ++ " Did you mean " ++ one ++ "?" }
  | several =>
      let sorted := several.mergeSort fun a b => decide (a ≤ b)
      { message := head ++ " (Possible options: " ++ ", ".intercalate sorted ++ ")" }

/-- An option without the value that it takes. -/
def valueMissing (name : String) : UsageError :=
  { message := "Option " ++ Text.quoted name ++ " requires an argument.", withUsage := false }

/-- An option with a value that it does not take. -/
def valueUnwanted (name : String) : UsageError :=
  { message := "Option " ++ Text.quoted name ++ " does not take a value.", withUsage := false }

/-! ## Sorting the words -/

/-- The value of an option that takes one: given with it, or the next word. -/
def valueOf (name : String) (attached : Option String) (rest : List String) :
    Except UsageError (String × List String) :=
  match attached, rest with
  | some value, _ => .ok (value, rest)
  | none, value :: rest => .ok (value, rest)
  | none, [] => .error (valueMissing name)

/-- What a word of letters holds: flags, and after them perhaps the option that takes a value, with
    the letters left for its value. -/
def letters : List Char → Except UsageError (List Flag × Option (List Char))
  | [] => .ok ([], none)
  | c :: rest =>
      match shortOption? c with
      | none => .error (noSuchOption (String.ofList ['-', c]) [])
      | some none => .ok ([], some rest)
      | some (some f) => do
          let (flags, value) ← letters rest
          return (f :: flags, value)

/-- A word up to its first `=`, and what follows that. -/
def splitValue (word : String) : String × Option String :=
  let cs := word.toList
  match cs.dropWhile (· != '=') with
  | [] => (word, none)
  | _ :: value => (String.ofList (cs.takeWhile (· != '=')), some (String.ofList value))

/-- The options in one word, and the words left after it. -/
def optionWord (word : String) (rest : List String) :
    Except UsageError (List Mention × List String) := do
  let (name, attached) := splitValue word
  match longOption? name with
  | some none =>
      let (value, rest) ← valueOf name attached rest
      return ([.output value], rest)
  | some (some f) =>
      if attached.isSome then .error (valueUnwanted name) else return ([.flag f], rest)
  | none =>
      if word.toList.take 2 = ['-', '-'] then
        .error (noSuchOption name (Text.closeMatches name longNames))
      else
        match ← letters (word.toList.drop 1) with
        | (flags, none) => return (flags.map .flag, rest)
        | (flags, some value) =>
            let attached := if value.isEmpty then none else some (String.ofList value)
            let (value, rest) ← valueOf "-o" attached rest
            return (flags.map .flag ++ [.output value], rest)

/-- Whether a word is an option: it starts with a dash and goes on. -/
def isOptionWord (word : String) : Bool :=
  word.toList.head? = some '-' && 1 < word.length

/-- No option makes words. -/
theorem length_valueOf {name : String} {attached : Option String} {rest left : List String}
    {value : String} (h : valueOf name attached rest = .ok (value, left)) :
    left.length ≤ rest.length := by
  unfold valueOf at h
  split at h <;> simp_all

theorem length_optionWord {word : String} {rest left : List String} {mentions : List Mention}
    (h : optionWord word rest = .ok (mentions, left)) : left.length ≤ rest.length := by
  unfold optionWord at h
  simp only [bind, Except.bind, pure, Except.pure] at h
  split at h
  · split at h
    · simp at h
    · rename_i v hv
      simp only [Except.ok.injEq, Prod.mk.injEq] at h
      exact h.2 ▸ length_valueOf hv
  · split at h
    · simp at h
    · simp_all
  · split at h
    · simp at h
    · split at h
      · simp at h
      · split at h
        · simp_all
        · split at h
          · simp at h
          · rename_i v hv
            simp only [Except.ok.injEq, Prod.mk.injEq] at h
            exact h.2 ▸ length_valueOf hv

/-- A command line, sorted. -/
def sortWords : List String → Except UsageError Words
  | [] => .ok ⟨[], []⟩
  | word :: rest =>
      if word = "--" then .ok ⟨[], rest⟩
      else if isOptionWord word then
        match h : optionWord word rest with
        | .error e => .error e
        | .ok (mentions, left) =>
            have := length_optionWord h
            match sortWords left with
            | .error e => .error e
            | .ok words => .ok ⟨mentions ++ words.mentions, words.others⟩
      else
        match sortWords rest with
        | .error e => .error e
        | .ok words => .ok ⟨words.mentions, word :: words.others⟩
termination_by words => words.length
decreasing_by
  all_goals simp only [List.length_cons]; omega

namespace Words

/-- Whether a flag is mentioned. -/
def has (w : Words) (f : Flag) : Bool := w.mentions.contains (.flag f)

/-- The last output path that is mentioned. -/
def output? (w : Words) : Option String :=
  w.mentions.reverse.findSome? fun
    | .output path => some path
    | .flag _ => none

/-- The first of the flags that come before everything else. -/
def eager? (w : Words) : Option Flag :=
  w.mentions.findSome? fun
    | .flag .help => some .help
    | .flag .version => some .version
    | _ => none

end Words

end ZebLang.Command
