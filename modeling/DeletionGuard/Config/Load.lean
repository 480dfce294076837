import DeletionGuard.Config.Basic
import DeletionGuard.Config.Violation
import DeletionGuard.Toml.Document

/-!
The configuration file: where it is, and what is read from it. A file that cannot be read or says
anything wrong counts as if it were not there.
-/
namespace DeletionGuard

open Toml (Table Fault)

inductive Reading where
  | missing
  | unreadable (f : Failure)
  | faulty (fault : Fault)
  | invalid (violations : List Violation)
  | valid (settings : Settings)
  /-- What is read is beyond what can be dealt with. -/
  | failed (f : Failure)

namespace World

/-- The value of a variable of the environment; an empty one counts as unset. -/
def setting? (w : World) (name : String) : Option String :=
  (w.env.lookup name).filter (· ≠ "")

def configHome (w : World) : Except Failure Path :=
  match w.setting? "XDG_CONFIG_HOME" with
  | some path => .ok (Path.ofString path)
  | none => w.home.map (·.child ".config")

def configPath (w : World) : Except Failure Path :=
  match w.setting? "SAFE_RM_CONFIG" with
  | some path => .ok (Path.ofString path)
  | none => w.configHome.map fun home => (home.child "safe-rm").child "config.toml"

def readingOf (t : Table) : Reading :=
  match Violation.report t with
  | .error f => .failed f
  | .ok _ =>
    match Violation.ofTable t with
    | [] =>
      match Settings.ofTable? t with
      | some settings => .valid settings
      | none => .invalid []
    | violations => .invalid violations

def readConfig (w : World) (path : Path) : Reading :=
  match w.isFile path.text with
  | .error f => .unreadable f
  | .ok false => .missing
  | .ok true =>
    match w.read path.text with
    | .error f => .unreadable f
    | .ok data =>
      match Table.ofBytes data with
      | .error (.longNumber digits) => .failed (.longNumber (some digits))
      | .error fault => .faulty fault
      | .ok t => readingOf t

def loadConfigAt (w : World) (path : Path) : Except Failure Config :=
  match w.readConfig path with
  | .valid settings => w.configOf settings (some path)
  | .failed f => .error f
  | _ => .ok .default

def loadConfig (w : World) (path : Option Path) : Except Failure Config :=
  match path with
  | some path => w.loadConfigAt path
  | none => w.configPath.bind w.loadConfigAt

end World
end DeletionGuard
