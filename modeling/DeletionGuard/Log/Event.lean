import DeletionGuard.Config.Load
import DeletionGuard.Guard

/-!
What a run notes down on its way to an answer. Warnings are always shown, the rest on request.
-/
namespace DeletionGuard

open Toml (Fault)

inductive Level where
  | debug
  | warning
  deriving DecidableEq, Repr

def Level.word : Level → String
  | debug => "DEBUG"
  | warning => "WARNING"

inductive Event where
  | resolved (raw : String) (path : Path) (kind : Kind)
  | judged (subject : String) (v : Verdict)
  | ruleDropped (raw : String) (f : Failure)
  | gitNotStarted (q : Git.Query) (reason : String)
  | gitFailed (q : Git.Query) (code : Int) (complaint : String)
  | notInRepository (start : Path)
  | statusRefused (root : Path)
  | statusKnown (root : Path) (changed directories tracked : Nat)
  | directoryUnreadable (directory : Path) (f : Failure)
  | treeAllowed (leaves : Nat) (directory : Path)
  | configMissing (path : Path)
  | configUnreadable (path : Path) (f : Failure)
  | configFaulty (path : Path) (fault : Fault)
  | configInvalid (path : Path) (violations : List Violation)
  | pathsUnresolved (number : Nat) (path : Path)

namespace Event

def level : Event → Level
  | statusRefused _ | configUnreadable _ _ | configFaulty _ _ | configInvalid _ _ => .warning
  | _ => .debug

def source : Event → String
  | resolved _ _ _ => "safe_rm.safety.paths"
  | judged _ _ => "safe_rm.safety.decision"
  | ruleDropped _ _ => "safe_rm.safety.allowed"
  | gitNotStarted _ _ | gitFailed _ _ _ | notInRepository _ | statusRefused _
  | statusKnown _ _ _ _ => "safe_rm.safety.git"
  | directoryUnreadable _ _ | treeAllowed _ _ => "safe_rm.core.coordinator"
  | configMissing _ | configUnreadable _ _ | configFaulty _ _ | configInvalid _ _
  | pathsUnresolved _ _ => "safe_rm.config"

def queryText (q : Git.Query) : String :=
  "git " ++ Text.glue ' ' q.arguments

def listing (messages : List String) : String :=
  String.ofList ([';', ' '].intercalate (messages.map String.toList))

/-- The text of an event, given a wording for faults of configuration files. -/
def message (wording : Fault → String) : Event → String
  | resolved raw path kind => "resolved " ++ raw ++ " -> " ++ path.text ++ " (" ++ kind.word ++ ")"
  | judged subject v => "verdict for " ++ subject ++ ": " ++ v.describe
  | ruleDropped raw f => "Dropping allowed path " ++ Text.quoted raw ++ ": " ++ f.message
  | gitNotStarted q reason => queryText q ++ " failed to start: " ++ reason
  | gitFailed q code complaint => queryText q ++ " exited " ++ Int.repr code ++ ": " ++ complaint
  | notInRepository start => start.text ++ " is not inside a git repository"
  | statusRefused root =>
    "git status failed in " ++ root.text ++ "; treating every file as modified"
  | statusKnown root changed directories tracked =>
    "git status for " ++ root.text ++ ": " ++ Nat.repr changed ++ " changed, " ++
      Nat.repr directories ++ " collapsed dirs, " ++ Nat.repr tracked ++ " tracked"
  | directoryUnreadable directory f => "Cannot read " ++ directory.text ++ ": " ++ f.message
  | treeAllowed leaves directory =>
    Nat.repr leaves ++ " entries under " ++ directory.text ++ " allowed"
  | configMissing path => "No config file at " ++ path.text ++ ", using defaults"
  | configUnreadable path f =>
    "Cannot read config " ++ path.text ++ ", using defaults: " ++ f.message
  | configFaulty path fault =>
    "Invalid TOML in " ++ path.text ++ ", using defaults: " ++ wording fault
  | configInvalid path violations =>
    "Config validation failed (" ++ path.text ++ "), using defaults: " ++
      listing (violations.map Violation.message)
  | pathsUnresolved number path =>
    Nat.repr number ++ " allowed path(s) in " ++ path.text ++ " could not be resolved"

def line (wording : Fault → String) (e : Event) : String :=
  e.level.word ++ " " ++ e.source ++ " " ++ e.message wording

def shown (verbose : Bool) (events : List Event) : List Event :=
  events.filter fun e => verbose || e.level = .warning

end Event
end DeletionGuard
