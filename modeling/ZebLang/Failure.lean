/-
  Everything that can stop the command, and how the command ends then.

  A diagnostic is printed as it is and the command ends with code 1.  Files that are missing or not
  permitted, and wrong parameters, end it with code 2; all else is internal and ends it with code 3,
  with the head of a trace when details are wanted.  Messages are printed without control sequences.
-/

import ZebLang.Fault
import ZebLang.Text.Quoted
import ZebLang.Text.Terminal
import ZebLang.Text.Utf8

namespace ZebLang

/-- A refusal of the operating system. -/
structure SystemError where
  code : Int
  reason : String
  path : Option String
  deriving DecidableEq, Repr

namespace SystemError

/-- The refusal with its number, and the path that it is about. -/
def message (e : SystemError) : String :=
  let head := "[Errno " ++ Text.decimal e.code ++ "] " ++ e.reason
  match e.path with
  | some path => head ++ ": " ++ Text.quoted path
  | none => head

/-- There is no such file. -/
def notFound (path : String) : SystemError := ⟨2, "No such file or directory", some path⟩

/-- A name in the middle of a path is not a directory. -/
def notDirectory (path : String) : SystemError := ⟨20, "Not a directory", some path⟩

/-- A directory stands where a file is wanted. -/
def isDirectory (path : String) : SystemError := ⟨21, "Is a directory", some path⟩

/-- A name, or a whole path, has too many bytes. -/
def nameTooLong (path : String) : SystemError := ⟨36, "File name too long", some path⟩

/-- Whether the refusal says that a path leads nowhere: there is no such file (2), or a name on the way
    is not a directory (20). -/
def isAbsence (e : SystemError) : Bool := e.code = 2 || e.code = 20

/-- Whether the refusal is that a file is missing (2) or not permitted (1 and 13). -/
def isUnavailable (e : SystemError) : Bool := e.code = 2 || e.code = 1 || e.code = 13

/-- Whether the refusal is that an operation would have to wait: try again (11), already going on (114)
    or in progress (115). -/
def isWait (e : SystemError) : Bool := e.code = 11 || e.code = 114 || e.code = 115

end SystemError

/-- Why the system does not do what it is asked: the operating system says no, or something else goes wrong,
    such as a text that a stream has no bytes for. -/
inductive Refusal where
  | system (e : SystemError)
  | other (message : String)
  deriving DecidableEq, Repr

/-- Why the command fails. -/
inductive Failure where
  | fault (f : Fault)
  | undecodable (f : Text.Utf8Fault)
  | system (e : SystemError)
  /-- The source file does not exist. -/
  | noSource (path : String)
  /-- A parameter is wrong, or a file is missing or not permitted. -/
  | refused (message : String)
  /-- A defect of the compiler itself. -/
  | defect (message : String)
  | other (message : String)

namespace Failure

/-- What is said about a failure. -/
def message : Failure → String
  | fault f => f.message
  | undecodable f => f.message
  | system e => e.message
  | noSource path => "Source file not found: " ++ path
  | refused message | defect message | other message => message

/-- The classes of failure that end the command differently. -/
inductive Severity where
  | build
  | usage
  | defect
  | unforeseen
  deriving DecidableEq, Repr

/-- How a failure ends the command. -/
def severity : Failure → Severity
  | fault (.diagnostic _) => .build
  | fault (.underflow _) | fault (.unbalanced ..) | defect _ => .defect
  | system e => if e.isUnavailable then .usage else .unforeseen
  | noSource _ | refused _ => .usage
  | _ => .unforeseen

/-- The exit code of a failure. -/
def exitCode (f : Failure) : Nat :=
  match f.severity with
  | .build => 1
  | .usage => 2
  | .defect | .unforeseen => 3

/-- The head of a trace. -/
def traceHead : String := "Traceback (most recent call last):\n"

/-- What is printed about a failure, one text after the other; with `verbose`, internal ones show the head of
    a trace. -/
def texts (f : Failure) (verbose : Bool) : List String :=
  let trace := if verbose then [traceHead] else []
  let message := Text.visible f.message
  match f.severity with
  | .build => [message ++ "\n"]
  | .usage => ["Error: " ++ message ++ "\n"]
  | .defect => (message ++ "\n") :: trace
  | .unforeseen => ("Internal error: " ++ message ++ "\n") :: trace

end Failure

/-- The failure that a refusal is for the command. -/
def Refusal.failure : Refusal → Failure
  | system e => .system e
  | other message => .other message

end ZebLang
