import Lox.Session
import Lox.Text.Blank

/-!
# The interactive prompt

The prompt runs one line after the other in one session, until a line that says `quit` or the end of
input. A mistake in a line ends nothing.
-/

namespace Lox

/-- A line that ends an interactive session: `quit` in any case of its letters, with any white space
around it. -/
def isQuit (line : String) : Bool := (trimmed line.toList).map Char.toLower == ['q', 'u', 'i', 't']

/-- Text for the two output streams. -/
structure Streams where
  out : String := ""
  err : String := ""
  deriving DecidableEq, Inhabited

namespace Streams

def append (a b : Streams) : Streams := ⟨a.out ++ b.out, a.err ++ b.err⟩

end Streams

/-- Each text on a line of its own. -/
def lineByLine (texts : List String) : String := String.join (texts.map (· ++ "\n"))

namespace Repl

def prompt : String := "> "

/-- Cut off the first line with its newline, and a carriage return before that. -/
def firstLine (bytes : List UInt8) : List UInt8 × List UInt8 :=
  let line := bytes.takeWhile (· != 10)
  match bytes.dropWhile (· != 10) with
  | [] => (line, [])
  | _ :: rest => (if line.getLast? == some 13 then line.dropLast else line, rest)

/-- What is said about a line that is no text. -/
def unreadableLine : String :=
  "Error: Failed to read from stdin\n\nCaused by:\n    stream did not contain valid UTF-8\n"

/-- What a line brings about. -/
inductive Turn where
  | done (code : Nat) (streams : Streams)
  | more (streams : Streams) (next : Session)

/-- Run one line, or leave at a line that says so or that is no text. -/
def turn (fuel : Nat) (s : Session) (line : List UInt8) : Option Turn :=
  match String.fromUTF8? ⟨line.toArray⟩ with
  | none => some (.done 1 ⟨"", unreadableLine⟩)
  | some text =>
    if isQuit text then some (.done 0 {})
    else
      match s.run fuel text with
      | some (answer, next) =>
        let streams := ⟨next.machine.output.text, lineByLine answer.diagnostics.messages⟩
        some (.more streams next.withoutOutput)
      | none => none

/-- Run the lines of an input, at most `limit` of them: the exit code and the two streams. -/
def run (fuel : Nat) : Nat → Session → List UInt8 → Option (Nat × Streams)
  | 0, _, _ => none
  | _ + 1, _, [] => some (0, ⟨prompt ++ "\n", ""⟩)
  | limit + 1, s, bytes =>
    let (line, rest) := firstLine bytes
    match turn fuel s line with
    | none => none
    | some (.done code streams) => some (code, Streams.append ⟨prompt, ""⟩ streams)
    | some (.more streams next) =>
      match run fuel limit next rest with
      | none => none
      | some (code, others) => some (code, (Streams.append ⟨prompt, ""⟩ streams).append others)

end Repl

end Lox
