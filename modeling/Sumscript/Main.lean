import Sumscript.Cli.Process

/-! # The program

The program processes its command line on the files of the disk and prints the result. Starting
tools is not part of this layer: a build on the disk alone ends where the compiler is called.
-/

namespace Sumscript

/-- The wording of an error of the disk. -/
def diskMessage : IO.Error → String
  | .noFileOrDirectory _ code details | .inappropriateType (some _) code details
  | .permissionDenied (some _) code details =>
    details ++ " (os error " ++ toString code ++ ")"
  | error => toString error

/-- What an operation of the disk gives. -/
def onDisk {α : Type} (operation : IO α) : ExceptT HostError IO α :=
  ExceptT.mk do
    try
      return .ok (← operation)
    catch error =>
      return .error (.refused (diskMessage error))

/-- The files of the disk, without tools. -/
def disk : Host IO where
  directory := return (← IO.currentDir).toString
  isFile path := do
    try
      return (← (← IO.FS.realPath path).metadata).type == .file
    catch _ =>
      return false
  read path := onDisk (IO.FS.readBinFile path)
  write path content := onDisk (IO.FS.writeBinFile path content)
  makeDirectory := onDisk (return (← IO.FS.createTempDir).toString)
  removeDirectory path := do
    try
      IO.FS.removeDirAll path
    catch _ =>
      return ()
  run _ _ := throw (.refused "Operation not supported (os error 95)")

/-- Processes a command line and prints the result. -/
def runOnDisk (arguments : List String) : IO UInt32 := do
  let outcome ← Cli.process disk arguments
  IO.print outcome.output
  IO.eprint outcome.error
  return outcome.code.toUInt32

end Sumscript

/-- Processes the command line. -/
def main (arguments : List String) : IO UInt32 :=
  Sumscript.runOnDisk arguments
