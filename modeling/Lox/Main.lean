import Lox.Command.Run
import Std.Time.DateTime.Timestamp

/-!
# The command line

This module reads the arguments, the file and the lines typed at the prompt, and writes what the
commands answer. What they answer is settled elsewhere: `Request.ofArgs`, `Request.perform` and
`Repl.turn`.
-/

namespace Lox.Main

/-- More steps than a program takes in practice. -/
def fuel : Nat := 1000000000000

/-- Clock readings that start now. -/
def clockReadings : IO (Nat → Option Number) := do
  let now ← Std.Time.Timestamp.now
  return Clock.readingsFrom now.toNanosecondsSinceUnixEpoch.val

/-- Why a file could not be used, with the number the system gives to the reason. -/
def reason : IO.Error → String
  | .noFileOrDirectory _ _ _ => PathError.notFound.reason
  | .inappropriateType _ 20 _ => PathError.notDirectory.reason
  | .inappropriateType _ 21 _ => PathError.isDirectory.reason
  | .invalidArgument _ 36 _ => PathError.nameTooLong.reason
  | .permissionDenied _ number _ => s!"Permission denied (os error {number})"
  | other => toString other

/-- Open a file and read it to its end. -/
def load (file : String) : IO Loaded := do
  match ← (IO.FS.Handle.mk file .read).toBaseIO with
  | .error error => return .notOpened (reason error)
  | .ok handle =>
    match ← handle.readBinToEnd.toBaseIO with
    | .error error => return .notRead (reason error)
    | .ok contents => return .bytes contents

/-- Write to the two output streams at once. -/
def show_ (streams : Streams) : IO Unit := do
  let out ← IO.getStdout
  out.putStr streams.out
  out.flush
  let err ← IO.getStderr
  err.putStr streams.err
  err.flush

/-- The bytes up to the next newline and that newline, or up to the end of the input. -/
partial def lineBytes (input : IO.FS.Stream) (read : List UInt8) : IO (List UInt8) := do
  match (← input.read 1).toList with
  | [] => return read.reverse
  | byte :: _ =>
    if byte == 10 then return (byte :: read).reverse else lineBytes input (byte :: read)

/-- Prompt for a line, run it and start again. -/
partial def prompt (input : IO.FS.Stream) (s : Session) : IO UInt32 := do
  show_ ⟨Repl.prompt, ""⟩
  match ← lineBytes input [] with
  | [] =>
    show_ ⟨"\n", ""⟩
    return 0
  | bytes =>
    match Repl.turn fuel (s.withClock (← clockReadings)) (Repl.firstLine bytes).1 with
    | none => return 1
    | some (.done code streams) =>
      show_ streams
      return code.toUInt32
    | some (.more streams next) =>
      show_ streams
      prompt input next

/-- Carry out a request. -/
def carryOut (request : Request) : IO UInt32 := do
  let readings ← clockReadings
  match request with
  | .command .repl _ => prompt (← IO.getStdin) (Session.new readings false)
  | .command (.onFile task file) log =>
    let loaded ← load file
    finish ((Request.command (.onFile task file) log).perform fuel readings (fun _ => loaded) [])
  | other => finish (other.perform fuel readings (fun file => .notOpened file) [])
where
  finish : Option CommandResult → IO UInt32
    | some result => do
      show_ result.streams
      return result.code.toUInt32
    | none => return 1

end Lox.Main

/-- Run the command that the arguments name. -/
def main (args : List String) : IO UInt32 := do
  let request := Lox.Request.ofArgs false args
  if let .command _ true := request then
    IO.FS.writeFile "app.log" (String.intercalate " " args ++ "\n")
  Lox.Main.carryOut request
