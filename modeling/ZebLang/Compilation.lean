/-
  Source text to assembly, with a report on the way.

  A report says how far the compilation came: how many tokens there were, the tree if there is one, and
  either the assembly or the diagnostic that stopped it.  Faults that are no diagnostics are not part of
  a report; they end the compilation without one.

  Diagnostics of the parser and of lowering quote the line at their place, split at every line break;
  those of the lexer come with the line that the lexer counted.
-/

import ZebLang.Lowering
import ZebLang.Options
import ZebLang.Program.Parser

namespace ZebLang

/-- How far a compilation came. -/
structure Report where
  file : String
  tokenCount : Nat
  /-- The program, if the text could be parsed. -/
  tree : Option Datum
  outcome : Except Diagnostic String

/-- A compilation: what was noted on the way, and the report or the fault that prevented one. -/
structure Compilation where
  notes : List Note
  result : Except Fault Report

namespace Compilation

/-- A compilation that came as far as `tokenCount` and `tree` and was stopped by a fault. -/
def stopped (file : String) (tokenCount : Nat) (tree : Option Datum) (notes : List Note) :
    Fault → Compilation
  | .diagnostic d =>
      ⟨notes ++ [.failed file d.cause.text], .ok ⟨file, tokenCount, tree, .error d⟩⟩
  | fault => ⟨notes, .error fault⟩

/-- The compilation of a parsed program. -/
def ofProgram (options : Options) (file : String) (tokenCount : Nat) (lines : List String)
    (program : Program) : Compilation :=
  let tree := program.toDatum
  let lowered := lowerTree options.comments tree
  let notes := lowered.frame.notes.toList
  match lowered.text with
  | .error fault => stopped file tokenCount (some tree) notes (fault.quoting lines)
  | .ok text =>
      ⟨notes ++ [.compiled file tokenCount program.statements.length],
        .ok ⟨file, tokenCount, some tree, .ok text⟩⟩

/-- The compilation of a source text. -/
def ofSource (options : Options) (source file : String) : Compilation :=
  let lines := Text.lines source
  match (lex source file).all with
  | .error fault => stopped file 0 none [] fault
  | .ok tokens =>
      match Program.ofTokens tokens file lines with
      | .error fault => stopped file tokens.length none [] fault
      | .ok program => ofProgram options file tokens.length lines program

end Compilation

/-- The assembly of a source text. -/
def compile (source file : String) : Except Fault String := do
  let report ← (Compilation.ofSource {} source file).result
  match report.outcome with
  | .ok text => return text
  | .error d => .error (.diagnostic d)

end ZebLang
