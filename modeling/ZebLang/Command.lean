/-
  The command: a source file is compiled, and its assembly written beside it or where `-o` says.

  Three parts follow one another, on any system.  A reader turns the words of the command line into a `Request`.
  The source text decides what the request comes to: its `plan`, a list of steps.  The steps are performed up to
  the first that fails or is refused, and the failure is reported.

  A plan writes at most one file, and only when the compilation has succeeded; listing the tokens or the outline
  writes none.  Lines for the user go to standard output; notes and failures go to standard error, notes only
  when details are wanted.  All but the notes is printed without control sequences.
-/

import ZebLang.Command.Arguments
import ZebLang.Compilation
import ZebLang.Path
import ZebLang.System

namespace ZebLang.Command

/-! ## Texts -/

/-- The text of `--version`. -/
def versionText : String := "zeb, version 0.1.0\n"

/-- How the command is used, in one line. -/
def usageLine : String := "Usage: zeb [OPTIONS] INPUT_FILE\n"

/-- The text of `--help`. -/
def helpText : String :=
  usageLine ++ "\n" ++ String.join ([
    "  Compile a Zeb program to x86-64 assembly.",
    "",
    "  INPUT_FILE is the Zeb source file (.zb) to compile.",
    "",
    "  Examples:",
    "      zeb count.zb                 # Outputs count.asm",
    "      zeb count.zb -o out.asm      # Specify output file",
    "      zeb --ast count.zb           # Show the parsed program",
    "      zeb -v count.zb              # Verbose output",
    "",
    "  Language:",
    "      x = 5                        # assignment",
    "      exit x + 2                   # exit status",
    "      for i in range(10)           # counting loop",
    "      y = print(x * 3)             # print a value",
    "",
    "Options:",
    "  -o, --output FILE  Output assembly file (default: input.asm)",
    "  --tokens           Print tokens and exit (for debugging)",
    "  --ast              Print AST and exit (for debugging)",
    "  -c, --comments     Annotate the assembly with the source statements (default",
    "                     from ZEB_COMMENTS)",
    "  -v, --verbose      Verbose output",
    "  --version          Show the version and exit.",
    "  --help             Show this message and exit."].map (· ++ "\n"))

/-- What is printed about words that cannot be followed. -/
def UsageError.text (e : UsageError) : String :=
  let usage := if e.withUsage then usageLine ++ "Try 'zeb --help' for help.\n\n" else ""
  usage ++ "Error: " ++ Text.visible e.message ++ "\n"

/-! ## Requests -/

/-- What a command line asks for.  The input is a file, so it has a name. -/
structure Request where
  input : Path
  output? : Option Path
  tokens : Bool
  ast : Bool
  comments : Bool
  verbose : Bool
  named : input.names ≠ []

namespace Request

/-- The path of the output: as it is given, or beside the input. -/
def output (r : Request) : Path := r.output?.getD (r.input.withSuffix ".asm")

/-- The options of the compilation; `setting` is the value of `ZEB_COMMENTS`, if it is set. -/
def options (r : Request) (setting : Option String) : Options :=
  { comments := r.comments || (Options.ofEnvironment setting).comments }

end Request

/-- A reader of command lines.  It gives a request, or ends the command with an exit code of its own. -/
abbrev Reader (m : Type → Type) := List String → m (Except Nat Request)

/-! ## Plans -/

/-- One thing that a request does. -/
inductive Step where
  /-- A line for the user. -/
  | echo (line : String)
  /-- A line of the log. -/
  | note (line : String)
  /-- The output is written. -/
  | write (text : String)
  | fail (f : Failure)

namespace Request

/-- The listing of the tokens of a source text. -/
def listing (r : Request) (source : String) : List Step :=
  let (listed, fault) := (lex source r.input.text).listing
  listed.map (fun shown => .echo shown.2) ++ (fault.map fun f => .fail (.fault f)).toList

/-- The outline of a tree, if it is wanted and there is one. -/
def outline? (r : Request) (report : Report) : Option (Except Fault String) :=
  if r.ast then report.tree.map Datum.outline else none

/-- How many statements a tree has. -/
def statementCount (tree : Option Datum) : Nat :=
  match tree with
  | some (.program _ statements) => statements.length
  | _ => 0

/-- What is printed after the assembly is written. -/
def summary (r : Request) (report : Report) (assembly : String) : List String :=
  let details :=
    if r.verbose then
      ["Tokenized: " ++ Text.natural report.tokenCount ++ " tokens",
        "Parsed: " ++ Text.natural (statementCount report.tree) ++ " statements",
        "Wrote " ++ Text.natural assembly.length ++ " bytes to " ++ r.output.text]
    else []
  details ++ ["Compiled " ++ r.input.text ++ " -> " ++ r.output.text]

/-- What is printed before a compilation is over. -/
def preface (r : Request) (work : Compilation) : List Step :=
  if r.verbose then
    .echo ("Compiling " ++ r.input.text ++ "...") :: work.notes.map fun note => .note note.text
  else []

/-- What becomes of a compilation. -/
def conclusion (r : Request) (work : Compilation) : List Step :=
  match work.result with
  | .error fault => [.fail (.fault fault)]
  | .ok report =>
      match r.outline? report with
      | some (.ok outline) => [.echo outline]
      | some (.error fault) => [.fail (.fault fault)]
      | none =>
          match report.outcome with
          | .error d => [.fail (.fault (.diagnostic d))]
          | .ok assembly => .write assembly :: (r.summary report assembly).map .echo

/-- The steps that a source text takes. -/
def plan (r : Request) (options : Options) (source : String) : List Step :=
  if r.tokens then r.listing source
  else
    let work := Compilation.ofSource options source r.input.text
    r.preface work ++ r.conclusion work

end Request

/-! ## Work -/

section Work

variable {m : Type → Type} [Monad m] (system : System m)

/-- One step.  A note may be refused. -/
def Step.perform (output : String) : Step → m (Except Failure Unit)
  | .echo line => do
      return (← system.print .output (Text.visible line ++ "\n")).mapError Refusal.failure
  | .note line => do
      let _ ← system.print .error (line ++ "\n")
      return .ok ()
  | .write text => do
      return (← system.write output text).mapError Refusal.failure
  | .fail f => return .error f

/-- Steps in their order, up to the first that fails or is refused. -/
def perform (output : String) : List Step → m (Except Failure Unit)
  | [] => return .ok ()
  | step :: rest => do
      match ← step.perform system output with
      | .ok () => perform output rest
      | .error f => return .error f

/-- Texts are printed, and the command ends with this exit code; if they cannot be printed, with 1. -/
def endWith (code : Nat) (stream : Stream) (texts : List String) : m Nat := do
  match ← system.printAll stream texts with
  | .ok () => return code
  | .error _ => return 1

/-- The text in the bytes of a source file. -/
def sourceText (bytes : List UInt8) : Except Failure String :=
  match Text.decode bytes with
  | .ok chars => .ok (String.ofList (Text.unifyBreaks chars))
  | .error fault => .error (.undecodable fault)

/-- A request, up to the first failure. -/
def Request.work (r : Request) (setting : Option String) : m (Except Failure Unit) := do
  match ← system.read r.input.text with
  | .error refusal => return .error refusal.failure
  | .ok bytes =>
      match sourceText bytes with
      | .error failure => return .error failure
      | .ok source => perform system r.output.text (r.plan (r.options setting) source)

/-- A request, done; the answer is the exit code. -/
def Request.run (r : Request) (setting : Option String) : m Nat := do
  match ← r.work system setting with
  | .ok () => return 0
  | .error f => endWith system f.exitCode .error (f.texts r.verbose)

/-- The command on its words; the answer is the exit code. -/
def run (reader : Reader m) (words : List String) (setting : Option String) : m Nat := do
  match ← reader words with
  | .ok r => r.run system setting
  | .error code => return code

end Work

/-! ## Reading words -/

/-- A wrong value of a parameter. -/
def invalidValue (parameter complaint : String) : UsageError :=
  { message := "Invalid value for " ++ parameter ++ ": " ++ complaint }

/-- The output must not be a directory. -/
def checkOutput (path : String) : Except SystemError FileKind → Except UsageError Unit
  | .ok .directory =>
      .error (invalidValue "'-o' / '--output'" ("File " ++ Text.quoted path ++ " is a directory."))
  | _ => .ok ()

/-- The input must be a file; a path without names is a directory. -/
def checkInput (path : String) :
    Except SystemError FileKind → Except UsageError {input : Path // input.names ≠ []}
  | .ok .file =>
      if h : (Path.ofText path).names ≠ [] then .ok ⟨Path.ofText path, h⟩ else isDirectory
  | .ok .directory => isDirectory
  | .error _ =>
      .error (invalidValue "'INPUT_FILE'" ("File " ++ Text.quoted path ++ " does not exist."))
where
  isDirectory :=
    .error (invalidValue "'INPUT_FILE'" ("File " ++ Text.quoted path ++ " is a directory."))

/-- There must be no words beyond the input file. -/
def checkExtra : List String → Except UsageError Unit
  | [] => .ok ()
  | [one] => .error { message := "Got unexpected extra argument (" ++ one ++ ")" }
  | several =>
      .error { message := "Got unexpected extra arguments (" ++ " ".intercalate several ++ ")" }

/-- The request that sorted words make. -/
def Words.request {m : Type → Type} [Monad m] (system : System m) (w : Words) :
    m (Except UsageError Request) := do
  let outputCheck ←
    match w.output? with
    | some path => do pure (checkOutput path (← system.status path))
    | none => pure (.ok ())
  match outputCheck with
  | .error e => return .error e
  | .ok () =>
      match w.others with
      | [] => return .error { message := "Missing argument 'INPUT_FILE'." }
      | path :: extra =>
          match checkInput path (← system.status path), checkExtra extra with
          | .error e, _ | .ok _, .error e => return .error e
          | .ok ⟨input, named⟩, .ok () =>
              return .ok
                { input
                  output? := w.output?.map Path.ofText
                  tokens := w.has .tokens
                  ast := w.has .ast
                  comments := w.has .comments
                  verbose := w.has .verbose
                  named }

/-- The reader of the command line. -/
def readWords {m : Type → Type} [Monad m] (system : System m) : Reader m := fun words => do
  match sortWords words with
  | .error e => return .error (← endWith system 2 .error [e.text])
  | .ok w =>
      match w.eager? with
      | some .help => return .error (← endWith system 0 .output [helpText])
      | some _ => return .error (← endWith system 0 .output [versionText])
      | none =>
          match ← w.request system with
          | .error e => return .error (← endWith system 2 .error [e.text])
          | .ok r => return .ok r

/-! ## One file -/

/-- The compilation of a source file.  The report names the file as it was given.  A path that leads
    nowhere is no source; other refusals are passed on. -/
def compileFile {m : Type → Type} [Monad m] (system : System m) (options : Options) (path : String) :
    m (Except Failure Report) := do
  let normal := (Path.ofText path).text
  match ← system.status normal with
  | .error e => return .error (if e.isAbsence then .noSource path else .system e)
  | .ok _ =>
      match ← system.read normal with
      | .error refusal => return .error refusal.failure
      | .ok bytes =>
          match sourceText bytes with
          | .error failure => return .error failure
          | .ok source =>
              match (Compilation.ofSource options source path).result with
              | .error fault => return .error (.fault fault)
              | .ok report => return .ok report

end ZebLang.Command
