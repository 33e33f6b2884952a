/-!
# Command line options

Options and at most one file name.  An option has its value attached or takes the
next argument, which then must not look like an option; no option is given twice, and
after two dashes there are no more options.
-/

namespace Conch.CommandLine

structure Options where
  /-- A script on the command line. -/
  script : Option String
  directory : Option String
  config : Option String
  /-- A file with a script. -/
  file : Option String
  json : Bool
  debug : Bool
  deriving DecidableEq, Repr

def Options.empty : Options := ⟨none, none, none, none, false, false⟩

/-- Options with a value. -/
inductive Setting where
  | script | directory | config
  deriving DecidableEq, Repr

/-- Options without a value. -/
inductive Switch where
  | json | debug | help | version
  deriving DecidableEq, Repr

/-- What an argument is by its form. -/
inductive Argument where
  | setting (setting : Setting) (value : Option String)
  | switch (switch : Switch)
  | plain (text : String)
  /-- Two dashes. -/
  | separator
  | unknown
  deriving DecidableEq, Repr

namespace Argument

/-- An option by its long name. -/
def long (name : String) (value : Option String) : Argument :=
  match name, value with
  | "cwd", value => .setting .directory value
  | "config", value => .setting .config value
  | "json", none => .switch .json
  | "debug", none => .switch .debug
  | "help", none => .switch .help
  | "version", none => .switch .version
  | _, _ => .unknown

/-- An option by its letter, with the text after it. -/
def short (letter : Char) (rest : List Char) : Argument :=
  match letter, rest with
  | 'c', [] => .setting .script none
  | 'c', '=' :: value => .setting .script (some (String.ofList value))
  | 'c', value => .setting .script (some (String.ofList value))
  | 'h', _ => .switch .help
  | 'V', _ => .switch .version
  | _, _ => .unknown

def ofText (text : String) : Argument :=
  match text.toList with
  | ['-', '-'] => .separator
  | '-' :: '-' :: rest =>
      let name := String.ofList (rest.takeWhile (· ≠ '='))
      match rest.dropWhile (· ≠ '=') with
      | [] => long name none
      | _ :: value => long name (some (String.ofList value))
  | '-' :: letter :: rest => short letter rest
  | _ => .plain text

end Argument

/-- What the arguments ask for. -/
inductive Wish where
  | run (options : Options)
  | help
  | version
  /-- The arguments make no sense. -/
  | misuse
  deriving DecidableEq, Repr

namespace Options

/-- Gives an option its value, once. -/
def give? (options : Options) (setting : Setting) (value : String) : Option Options :=
  match setting with
  | .script => if options.script.isSome then none else some { options with script := some value }
  | .directory =>
      if options.directory.isSome then none else some { options with directory := some value }
  | .config => if options.config.isSome then none else some { options with config := some value }

def giveFile? (options : Options) (file : String) : Option Options :=
  if options.file.isSome then none else some { options with file := some file }

/-- After the separator there are only files. -/
def readFiles (options : Options) : List String → Wish
  | [] => .run options
  | file :: rest =>
      match options.giveFile? file with
      | some options => readFiles options rest
      | none => .misuse

/-- Takes up the arguments one by one. -/
def read (options : Options) : List String → Wish
  | [] => .run options
  | arg :: rest =>
      match Argument.ofText arg with
      | .separator => readFiles options rest
      | .unknown => .misuse
      | .switch .help => .help
      | .switch .version => .version
      | .switch .json => if options.json then .misuse else read { options with json := true } rest
      | .switch .debug => if options.debug then .misuse else read { options with debug := true } rest
      | .plain file =>
          match options.giveFile? file with
          | some options => read options rest
          | none => .misuse
      | .setting setting (some value) =>
          match options.give? setting value with
          | some options => read options rest
          | none => .misuse
      | .setting setting none =>
          match rest with
          | [] => .misuse
          | value :: rest =>
              match Argument.ofText value, options.give? setting value with
              | .plain _, some options => read options rest
              | _, _ => .misuse

end Options

def helpText : String :=
  "A POSIX-style shell with a tree-walking interpreter\n\n" ++
  "Usage: treesh [OPTIONS] [SCRIPT_FILE]\n\n" ++
  "Arguments:\n" ++
  "  [SCRIPT_FILE]  Script file to execute\n\n" ++
  "Options:\n" ++
  "  -c <SCRIPT>            Execute the script from command line argument\n" ++
  "      --cwd <CWD>        Working directory\n" ++
  "      --json             Output results as JSON (stdout, stderr, exitCode)\n" ++
  "      --config <CONFIG>  TOML configuration file (env, cwd, limits)\n" ++
  "      --debug            Enable debug logging on stderr\n" ++
  "  -h, --help             Print help\n" ++
  "  -V, --version          Print version\n"

def versionText : String := "treesh 0.1.0\n"

def misuseText : String :=
  "error: invalid arguments\n\n" ++
  "Usage: treesh [OPTIONS] [SCRIPT_FILE]\n\n" ++
  "For more information, try '--help'.\n"

end Conch.CommandLine
