/-
  The system that the command runs on.

  The command asks for the kind of a file and for its bytes, writes a text to a file, and prints on two streams.
  Each of these may be refused.
-/

import ZebLang.Failure

namespace ZebLang

/-- What a path may lead to. -/
inductive FileKind where
  | file
  | directory
  deriving DecidableEq, Repr

/-- Where the command prints. -/
inductive Stream where
  | output
  | error
  deriving DecidableEq, Repr

/-- What the command asks of the system. -/
structure System (m : Type → Type) where
  status : String → m (Except SystemError FileKind)
  read : String → m (Except Refusal (List UInt8))
  write : String → String → m (Except Refusal Unit)
  print : Stream → String → m (Except Refusal Unit)

/-- Texts on a stream, up to the first that is refused. -/
def System.printAll {m : Type → Type} [Monad m] (system : System m) (stream : Stream) :
    List String → m (Except Refusal Unit)
  | [] => return .ok ()
  | text :: rest => do
      match ← system.print stream text with
      | .ok () => system.printAll stream rest
      | .error refusal => return .error refusal

end ZebLang
