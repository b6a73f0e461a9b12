/-
  The command on a real system: words, environment, files and streams are those of the operating system.
  Everything that is decided is decided in `ZebLang.Command`.
-/

import ZebLang.Command

namespace ZebLang.Command

/-- A refusal of the operating system, in the words of the command. -/
def refusal (path : String) : IO.Error → SystemError
  | .noFileOrDirectory _ code _ => ⟨code.toNat, "No such file or directory", some path⟩
  | .permissionDenied _ code details => ⟨code.toNat, details, some path⟩
  | .inappropriateType _ code details => ⟨code.toNat, details, some path⟩
  | .invalidArgument _ code details => ⟨code.toNat, details, some path⟩
  | .resourceExhausted _ code details => ⟨code.toNat, details, some path⟩
  | .alreadyExists _ code details => ⟨code.toNat, details, some path⟩
  | e => ⟨5, toString e, some path⟩

/-- An action on a file, or the refusal of it. -/
def attempt {α : Type} (path : String) (action : IO α) : IO (Except SystemError α) := do
  try
    return .ok (← action)
  catch e =>
    return .error (refusal path e)

/-- The files and streams of the operating system. -/
def machine : System IO where
  status path := attempt path do
    let real ← IO.FS.realPath path
    let info ← real.metadata
    match info.type with
    | .dir => return .directory
    | _ => return .file
  read path := do
    return (← attempt path (IO.FS.readBinFile path)) |>.map (·.toList) |>.mapError .system
  write path text := do
    return (← attempt path (IO.FS.writeFile path text)).mapError .system
  print stream text := do
    let stream ←
      match stream with
      | .output => IO.getStdout
      | .error => IO.getStderr
    try
      stream.putStr text
      stream.flush
      return .ok ()
    catch e =>
      return .error (.other (toString e))

end ZebLang.Command

/-- The command. -/
def main (words : List String) : IO UInt32 := do
  let setting ← IO.getEnv "ZEB_COMMENTS"
  let code ← ZebLang.Command.run ZebLang.Command.machine
    (ZebLang.Command.readWords ZebLang.Command.machine) words setting
  return code.toUInt32
