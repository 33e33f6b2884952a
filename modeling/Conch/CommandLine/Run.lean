import Conch.CommandLine.Console
import Conch.CommandLine.Options
import Conch.Shell.Config
import Conch.Text.Quoted

/-!
# The command

Runs a script from the command line or a file, or a session on the console.  The
status is that of the last script modulo 256; two stands for wrong arguments and
configurations, one for a script that cannot be read.
-/

namespace Conch.CommandLine

/-- Statuses of processes count modulo 256. -/
def processStatus (status : Int) : Nat := (status % 256).toNat

def completionJson (completion : Completion) : String :=
  "\x7b\"stdout\":" ++ Text.jsonString completion.output ++
    ",\"stderr\":" ++ Text.jsonString completion.errors ++
    ",\"exitCode\":" ++ toString completion.status ++ "\x7d"

section

variable (executor : Executor) (shell : Shell)

def runScript (json : Bool) (script : String) : Proc Nat := do
  let completion ← (Shell.exec executor script).run' shell
  if json then Console.write (completionJson completion ++ "\n")
  else
    Console.write completion.output
    Console.writeErrors completion.errors
  return processStatus completion.status

/-- Runs what the options ask for. -/
def runSource (options : Options) : Proc Nat := do
  match options.script, options.file with
  | some script, _ => runScript executor shell options.json script
  | none, some file =>
      match ← File.readText file with
      | .ok script => runScript executor shell options.json script
      | .error e =>
          Console.writeErrors
            (diagnostic ("cannot read script file: " ++ file ++ ": " ++ e.message))
          return 1
  | none, none => return processStatus (← Console.converse executor shell)

end

/-- The configuration that the options name. -/
def loadConfig (options : Options) : Proc (Except ConfigError ShellOptions) := do
  match options.config with
  | none => return .ok .standard
  | some path => return (← Config.load path).map Config.options

/-- Runs the command with its arguments in a directory. -/
def run (executor : Executor) (directory : String) (pid : Nat) (arguments : List String) :
    Proc Nat := do
  match Options.empty.read arguments with
  | .misuse =>
      Console.writeErrors misuseText
      return 2
  | .help =>
      Console.write helpText
      return 0
  | .version =>
      Console.write versionText
      return 0
  | .run options =>
      match ← loadConfig options with
      | .error e =>
          Console.writeErrors (diagnostic e.message)
          return 2
      | .ok settings =>
          let settings := { settings with directory := options.directory <|> settings.directory }
          runSource executor (Shell.create settings directory pid) options

end Conch.CommandLine
