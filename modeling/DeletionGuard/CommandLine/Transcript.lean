import DeletionGuard.Batch
import DeletionGuard.CommandLine.Command
import DeletionGuard.Config.Template
import DeletionGuard.Removal
import DeletionGuard.Report

/-!
Runs of commands in a world. A run leaves a world behind and a transcript of what it printed, noted
and asked.
-/
namespace DeletionGuard

open CommandLine (Misuse)

inductive Finish where
  | exit (status : Nat)
  /-- Nothing was done, since the command line is wrong. -/
  | misused (m : Misuse)
  /-- A failure that the program does not handle. -/
  | crashed (f : Failure)
  deriving DecidableEq, Repr

namespace Finish

def status : Finish → Nat
  | exit n => n
  | misused _ => 2
  | crashed _ => 1

end Finish

structure Transcript where
  world : World
  out : List Console.Item
  err : List Console.Item
  log : List Event
  trashed : List String
  asked : List World.Asked
  finish : Finish

namespace Transcript

def start (w : World) : Transcript :=
  ⟨w, [], [], [], [], [], .exit 0⟩

def crash (t : Transcript) (f : Failure) : Transcript :=
  { t with finish := .crashed f }

def exit (t : Transcript) (status : Nat) : Transcript :=
  { t with finish := .exit status }

/-- Lines for the console; the first that cannot be printed ends the run. -/
def print (t : Transcript) : List (Except Failure Console.Item) → Transcript
  | [] => t
  | .ok item :: rest => print { t with out := t.out ++ [item] } rest
  | .error f :: _ => t.crash f

def complain (t : Transcript) (message : String) : Transcript :=
  match Console.errorLine t.world.screen message with
  | .ok item => { t with err := t.err ++ [item] }.exit 1
  | .error f => t.crash f

end Transcript

structure Judged where
  batch : Batch
  outcomes : List Outcome
  transcript : Transcript

namespace World

def cannotStart (f : Failure) : String :=
  "safe-rm: cannot determine current directory: " ++ f.message

/-- The outcomes for the paths of a selection, or the transcript of a run that ended before they
were all found. -/
def judgeSelection (w : World) (s : Selection) : Except Transcript Judged :=
  let t := { Transcript.start w with log := w.configLog s.config }
  match w.loadConfig s.config with
  | .error f => .error (t.crash f)
  | .ok config =>
    match w.getcwd with
    | .error f => .error (t.complain (cannotStart f))
    | .ok text =>
      let cwd := Path.ofString text
      let t := { t with
        log := t.log ++ w.batchLog config cwd none none
        asked := w.batchAsked config cwd none none }
      match w.startBatch config cwd none none with
      | .error f => .error (t.crash f)
      | .ok batch =>
        let t := { t with log := t.log ++ batch.evaluator.processLog w s.flags s.paths }
        match batch.evaluator.process w s.flags s.paths with
        | .error f => .error (t.crash f)
        | .ok outcomes => .ok ⟨batch, outcomes, t⟩

def runRemove (w : World) (s : Selection) (dryRun useTrash : Bool) : Transcript :=
  match w.judgeSelection s with
  | .error t => t
  | .ok j =>
    let remover : Remover := ⟨j.batch.projectRoot, dryRun, useTrash⟩
    let r := remover.execute w j.outcomes
    { j.transcript with
      world := r.world
      out := r.out
      err := r.err
      trashed := r.trashed
      finish := match r.crash with
        | some f => .crashed f
        | none => .exit r.tally.exitCode }

def runCheck (w : World) (s : Selection) : Transcript :=
  match w.judgeSelection s with
  | .error t => t
  | .ok j =>
    let head := Console.line w.screen <| Console.styled "dim" <|
      "Project root: " ++ Markup.escape j.batch.projectRoot.text
    let t := j.transcript.exit (Tally.ofOutcomes j.outcomes).exitCode
    match Report.display j.outcomes w.screen with
    | .ok items => t.print (head :: items.map .ok)
    | .error f => t.print [head, .error f]

def runInit (w : World) (force : Bool) : Transcript :=
  let t := Transcript.start w
  match w.configPath with
  | .error f => t.crash f
  | .ok path =>
    match w.exists? path.text with
    | .error f => t.complain ("Cannot access config file " ++ path.text ++ ": " ++ f.message)
    | .ok found =>
      if found && !force then
        t.print
          [Console.warningLine w.screen ("Config file already exists: " ++ path.text),
           Console.line w.screen (Console.styled "dim" "Use --force to overwrite")]
      else
        match w.writeNested path Config.template with
        | (w, some f) =>
          let t := { t with world := w }
          if f.isSystem then
            t.complain ("Cannot write config file " ++ path.text ++ ": " ++ f.message)
          else t.crash f
        | (w, none) =>
          { t with world := w }.print
            [Console.line w.screen
              (Console.styled "green" "Created config file:" ++ " " ++ Markup.escape path.text),
             Console.line w.screen
              (Console.styled "dim" "Default: ~/.claude/skills is allowed (recursive)."),
             Console.line w.screen
              (Console.styled "dim" "Edit the file to add more allowed paths.")]

def flagText (b : Bool) : String :=
  if b then "True" else "False"

def sourcePanel (w : World) (c : Config) : Except Failure Console.Item :=
  let source := match c.source with
    | some path => Markup.escape path.text
    | none => Console.styled "dim" "defaults only"
  Console.panel w.screen "Configuration Source" <|
    Console.styled "bold" "Active config:" ++ " " ++ source ++ "\n" ++
      Console.styled "bold" "allow_project_deletion:" ++ " " ++
      flagText c.settings.allowProjectDeletion

def pathRow (w : World) (a : AllowedPath) : Except Failure (List String) :=
  let row (place : String) := [Markup.escape a.path, flagText a.recursive, place]
  match w.directoryOf a.path with
  | .ok directory => .ok (row (Markup.escape directory.text))
  | .error f =>
    if f = .nulInPath then .error f
    else .ok (row (Console.styled "yellow" "dropped (cannot resolve)"))

def pathTable (w : World) (paths : List AllowedPath) : Except Failure Console.Item :=
  if paths = [] then Console.line w.screen (Console.styled "dim" "No allowed paths configured")
  else
    (paths.mapM w.pathRow).bind
      (Console.narrowTable w.screen "Allowed Paths" ["Path", "Recursive", "Resolved"])

def runShowConfig (w : World) (config : Option Path) : Transcript :=
  let t := { Transcript.start w with log := w.configLog config }
  match w.loadConfig config with
  | .error f => t.crash f
  | .ok c => t.print [w.sourcePanel c, w.pathTable c.settings.allowedPaths]

def runShowConfigPath (w : World) : Transcript :=
  let t := Transcript.start w
  match w.configPath with
  | .error f => t.crash f
  | .ok path =>
    let state := match w.isFile path.text with
      | .ok true => Console.styled "green" "exists"
      | .ok false => Console.styled "dim" "not found"
      | .error f => Console.styled "yellow" ("unreadable: " ++ Markup.escape f.reason)
    t.print [Console.line w.screen
      ("Config file: " ++ Markup.escape path.text ++ " (" ++ state ++ ")")]

def versionLine (w : World) : Except Failure Console.Item :=
  Console.line w.screen "safe-rm v0.4.0"

def runCommand (w : World) : Command → Transcript
  | .remove s dryRun useTrash => w.runRemove s dryRun useTrash
  | .check s => w.runCheck s
  | .init force => w.runInit force
  | .showConfig config => w.runShowConfig config
  | .showConfigPath => w.runShowConfigPath
  | .version => (Transcript.start w).print [w.versionLine]
  | .help => Transcript.start w

def run (w : World) (line : List String) : Transcript :=
  match w.readLine line with
  | .error m => { Transcript.start w with finish := .misused m }
  | .ok i =>
    let t := w.runCommand i.command
    { t with log := Event.shown i.verbose t.log }

def runAll (w : World) : List (List String) → List Transcript
  | [] => []
  | line :: rest =>
    let t := w.run line
    t :: runAll t.world rest

end World
end DeletionGuard
