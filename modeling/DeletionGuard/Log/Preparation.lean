import DeletionGuard.Log.Event

/-!
What is noted while the ground of a run is laid: configuration, rules, repository and git status.
Each log ends where its step fails. The questions put to git are listed beside the notes on them.
-/
namespace DeletionGuard.World

abbrev Asked := Path × Git.Query

def rulesLog (w : World) : List AllowedPath → List Event
  | [] => []
  | a :: rest =>
    match w.directoryOf a.path with
    | .ok _ => rulesLog w rest
    | .error f => if f = .nulInPath then [] else .ruleDropped a.path f :: rulesLog w rest

def settingsLog (w : World) (settings : Settings) (path : Path) : List Event :=
  w.rulesLog settings.allowedPaths ++
    match w.rulesOf settings.allowedPaths with
    | .error _ => []
    | .ok rules =>
      let dropped := settings.allowedPaths.length - rules.length
      if dropped = 0 then [] else [.pathsUnresolved dropped path]

def configLogAt (w : World) (path : Path) : List Event :=
  match w.readConfig path with
  | .missing => [.configMissing path]
  | .unreadable f => [.configUnreadable path f]
  | .faulty fault => [.configFaulty path fault]
  | .invalid violations => [.configInvalid path violations]
  | .valid settings => w.settingsLog settings path
  | .failed _ => []

def configLog (w : World) (path : Option Path) : List Event :=
  match path with
  | some path => w.configLogAt path
  | none =>
    match w.configPath with
    | .ok path => w.configLogAt path
    | .error _ => []

def askLog (w : World) (directory : Path) (q : Git.Query) : List Event :=
  match w.askGit directory q with
  | .ok (.notStarted reason) => [.gitNotStarted q reason]
  | .ok (.exited code complaint) => [.gitFailed q code complaint]
  | _ => []

def repositoryLog (w : World) (directory : Path) : List Event :=
  w.askLog directory .topLevel

def statusLog (w : World) (root : Path) : List Event :=
  let asked := w.askLog root .status
  match w.askGit root .status with
  | .ok (.answered _) => asked ++ w.askLog root .files
  | _ => asked

def oracleLog (w : World) (start : Path) : List Event :=
  w.repositoryLog start ++
    match w.repositoryRoot start with
    | .error _ => []
    | .ok none => [.notInRepository start]
    | .ok (some root) =>
      w.statusLog root ++
        match w.repositoryStatus root with
        | .error _ => []
        | .ok none => [.statusRefused root]
        | .ok (some (changes, tracked)) =>
          [.statusKnown root changes.files.length changes.directories.length
            tracked.eraseDups.length]

def repositoryAsked (directory : Path) : List Asked :=
  [(directory, .topLevel)]

def oracleAsked (w : World) (start : Path) : List Asked :=
  repositoryAsked start ++
    match w.repositoryRoot start with
    | .ok (some root) =>
      (root, .status) ::
        match w.askGit root .status with
        | .ok (.answered _) => [(root, .files)]
        | _ => []
    | _ => []

end DeletionGuard.World
