import DeletionGuard.CommandLine.Option
import DeletionGuard.Config.Load
import DeletionGuard.Evaluation

/-!
Commands, and the command line that asks for each. A line whose first word is neither a command nor
an option of the program itself is one of paths to remove. The whole line is read before anything
is done.
-/
namespace DeletionGuard

open CommandLine (Misuse Switch Words)

structure Selection where
  flags : Flags
  /-- The configuration file, if it is not at the usual place. -/
  config : Option Path
  paths : List String
  deriving DecidableEq, Repr

inductive Command where
  | remove (s : Selection) (dryRun useTrash : Bool)
  | check (s : Selection)
  | init (force : Bool)
  | showConfig (config : Option Path)
  | showConfigPath
  | version
  | help
  deriving DecidableEq, Repr

structure Invocation where
  command : Command
  verbose : Bool
  deriving DecidableEq, Repr

inductive Verb where
  | rm
  | check
  | init
  | config
  deriving DecidableEq, Repr

namespace Verb

def all : List Verb :=
  [rm, check, init, config]

def word : Verb → String
  | rm => "rm"
  | check => "check"
  | init => "init"
  | config => "config"

def ofWord? (s : String) : Option Verb :=
  all.find? (·.word = s)

end Verb

namespace World

/-- A configuration file that a command line names. It need not exist, but it has to be readable
and no directory if it does. -/
def namedConfig (w : World) (name : String) : Except Misuse Path :=
  let p := Path.ofString name
  if Text.holds Text.nul name then .error .badConfig
  else
    match w.stat p.text with
    | .error _ => .ok p
    | .ok e => if e.isDir || !w.readable p.text then .error .badConfig else .ok p

def configIn (w : World) (ws : Words) : Except Misuse (Option Path) :=
  match ws.value? .config with
  | none => .ok none
  | some name => (w.namedConfig name).map some

def unlessHelp (ws : Words) (command : Except Misuse Command) : Except Misuse Invocation :=
  if ws.has .help then .ok ⟨.help, false⟩
  else command.map fun c => ⟨c, ws.has .verbose⟩

def selection (w : World) (ws : Words) : Except Misuse Selection :=
  match w.configIn ws with
  | .error m => .error m
  | .ok config =>
    if ws.arguments = [] then .error .noPath
    else .ok ⟨⟨ws.has .recursive, ws.has .force⟩, config, ws.arguments⟩

def withoutArguments (ws : Words) (command : Command) : Except Misuse Command :=
  if ws.arguments = [] then .ok command else .error .badWord

def readRemove (w : World) (line : List String) : Except Misuse Invocation :=
  (CommandLine.sort [.recursive, .force, .dryRun, .trash, .config, .verbose, .help] true line).bind
    fun ws => unlessHelp ws <|
      (w.selection ws).map fun s => .remove s (ws.has .dryRun) (ws.has .trash)

def readCheck (w : World) (line : List String) : Except Misuse Invocation :=
  (CommandLine.sort [.recursive, .force, .config, .verbose, .help] true line).bind
    fun ws => unlessHelp ws ((w.selection ws).map .check)

def readInit (line : List String) : Except Misuse Invocation :=
  (CommandLine.sort [.force, .help] true line).bind
    fun ws => unlessHelp ws (withoutArguments ws (.init (ws.has .force)))

def readShow (w : World) (line : List String) : Except Misuse Invocation :=
  (CommandLine.sort [.config, .verbose, .help] true line).bind
    fun ws => unlessHelp ws <|
      (w.configIn ws).bind fun config => withoutArguments ws (.showConfig config)

def readPath (line : List String) : Except Misuse Invocation :=
  (CommandLine.sort [.help] true line).bind
    fun ws => unlessHelp ws (withoutArguments ws .showConfigPath)

/-- The end of a line from a word on that names no command. Behind `--` that word may look like an
option, and is then read as one. -/
def readUnknown (line : List String) : Except Misuse Invocation :=
  (CommandLine.sort [.help] false line).bind fun ws =>
    if ws.has .help then .ok ⟨.help, false⟩ else .error .badWord

def readConfigCommand (w : World) (line : List String) : Except Misuse Invocation :=
  if line = [] then .error .nothingAsked
  else
    (CommandLine.sort [.help] false line).bind fun ws =>
      if ws.has .help then .ok ⟨.help, false⟩
      else
        match ws.arguments with
        | [] => .error .badWord
        | word :: rest =>
          if word = "show" then w.readShow rest
          else if word = "path" then readPath rest
          else readUnknown (word :: rest)

def readProgramOptions (line : List String) : Except Misuse Invocation :=
  (CommandLine.sort [.version, .help] false line).map fun ws =>
    match ws.options with
    | (.version, _) :: _ => ⟨.version, false⟩
    | _ => ⟨.help, false⟩

def readCommand (w : World) : Verb → List String → Except Misuse Invocation
  | .rm, line => w.readRemove line
  | .check, line => w.readCheck line
  | .init, line => readInit line
  | .config, line => w.readConfigCommand line

def isProgramOption (word : String) : Bool :=
  word = "--help" || word = "--version" || word = "-V"

/-- The line with the command that is meant where its first word asks for none. -/
def routeLine : List String → List String
  | [] => []
  | word :: rest =>
    if (Verb.ofWord? word).isSome || isProgramOption word then word :: rest
    else Verb.rm.word :: word :: rest

def readRouted (w : World) : List String → Except Misuse Invocation
  | [] => .error .nothingAsked
  | word :: rest =>
    match Verb.ofWord? word with
    | some verb => w.readCommand verb rest
    | none => readProgramOptions (word :: rest)

def readLine (w : World) (line : List String) : Except Misuse Invocation :=
  w.readRouted (routeLine line)

end World
end DeletionGuard
