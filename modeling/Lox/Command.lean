/-!
# Command lines

A command line names one command, with options that may stand before or after its file:

    [--log] tokenize [--json] FILE | parse FILE | evaluate FILE | run FILE | repl

Without a command, it is `repl`. Arguments are taken from left to right, and the first that settles
the matter does so: a mistake, or a question for the version or for help. An option may be given
once at each level, before the command and after it. After `--`, every argument is a file.
-/

namespace Lox

/-- What is done with a file of source text. -/
inductive FileTask where
  | tokenize (json : Bool)
  | parse
  | evaluate
  | run
  deriving DecidableEq

inductive Command where
  | onFile (task : FileTask) (file : String)
  | repl
  deriving DecidableEq

/-- What a command line asks for. -/
inductive Request where
  | version
  | help
  /-- The command line makes no sense. -/
  | usage
  | command (command : Command) (log : Bool)
  deriving DecidableEq

namespace Request

/-- An argument that can only be an option. A single hyphen is none. -/
def isOption (arg : String) : Bool :=
  match arg.toList with
  | '-' :: _ :: _ => true
  | _ => false

/-- An argument that starts with a short option. -/
def isShort (option : Char) (arg : String) : Bool :=
  match arg.toList with
  | '-' :: c :: _ => c == option
  | _ => false

def asksForHelp (arg : String) : Bool := arg == "--help" || isShort 'h' arg

/-- The arguments after `repl`. -/
def ofReplArgs (outerLog innerLog : Bool) : List String → Request
  | [] => .command .repl (outerLog || innerLog)
  | arg :: rest =>
    if arg == "--" then (if rest.isEmpty then .command .repl (outerLog || innerLog) else .usage)
    else if arg == "--log" then (if innerLog then .usage else ofReplArgs outerLog true rest)
    else if asksForHelp arg then .help
    else .usage

/-- What was read after the name of a command that takes a file. -/
structure FileArgs where
  file : Option String := none
  json : Bool := false
  log : Bool := false

/-- The files after `--`. -/
def ofFilesOnly (build : FileArgs → Request) (read : FileArgs) : List String → Request
  | [] => build read
  | arg :: rest =>
    if read.file.isSome || arg == "" then .usage
    else ofFilesOnly build { read with file := some arg } rest

/-- The arguments after the name of a command that takes a file. -/
def ofFileArgs (takesJson : Bool) (build : FileArgs → Request) (read : FileArgs) :
    List String → Request
  | [] => build read
  | arg :: rest =>
    if arg == "--" then ofFilesOnly build read rest
    else if arg == "--log" then
      if read.log then .usage else ofFileArgs takesJson build { read with log := true } rest
    else if takesJson && arg == "--json" then
      if read.json then .usage else ofFileArgs takesJson build { read with json := true } rest
    else if asksForHelp arg then .help
    else if isOption arg || read.file.isSome || arg == "" then .usage
    else ofFileArgs takesJson build { read with file := some arg } rest

/-- The request for a task on the file that was read. -/
def onFile (task : FileArgs → FileTask) (outerLog : Bool) (read : FileArgs) : Request :=
  match read.file with
  | some file => .command (.onFile (task read) file) (outerLog || read.log)
  | none => .usage

/-- The names of the commands. -/
def commandNames : List String := ["tokenize", "parse", "evaluate", "run", "repl", "help"]

/-- The arguments after the name of a command. -/
def ofCommandArgs (name : String) (log : Bool) (rest : List String) : Request :=
  match name with
  | "tokenize" => ofFileArgs true (onFile (fun read => .tokenize read.json) log) {} rest
  | "parse" => ofFileArgs false (onFile (fun _ => .parse) log) {} rest
  | "evaluate" => ofFileArgs false (onFile (fun _ => .evaluate) log) {} rest
  | "run" => ofFileArgs false (onFile (fun _ => .run) log) {} rest
  | "repl" => ofReplArgs log false rest
  | _ =>
    match rest with
    | [] => .help
    | [topic] => if commandNames.contains topic then .help else .usage
    | _ => .usage

/-- Read a command line. -/
def ofArgs (log : Bool) : List String → Request
  | [] => .command .repl log
  | arg :: rest =>
    if commandNames.contains arg then ofCommandArgs arg log rest
    else if arg == "--" then (if rest.isEmpty then .command .repl log else .usage)
    else if arg == "--log" then (if log then .usage else ofArgs true rest)
    else if arg == "--version" || isShort 'V' arg then .version
    else if asksForHelp arg then .help
    else .usage

end Request

end Lox
