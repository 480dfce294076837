import DeletionGuard.Config.Draft

/-!
The configuration of a run: the settings of a file and the rules that its allowed paths give in the
world. The rules are made once, when the configuration is.
-/
namespace DeletionGuard

open Toml (Table Value)

structure Settings where
  /-- Whether everything inside the project may be deleted. -/
  allowProjectDeletion : Bool
  allowedPaths : List AllowedPath
  deriving DecidableEq, Repr

namespace Settings

def default : Settings :=
  ⟨true, []⟩

def flag? : Value → Option Bool
  | .boolean b => some b
  | _ => none

def allowedPath? (p : PathDraft) : Option AllowedPath :=
  match p.path, flag? p.recursive with
  | .string path, some recursive => some ⟨path, recursive⟩
  | _, _ => none

def ofDraft? (d : Draft) : Option Settings :=
  match flag? d.allowProjectDeletion, d.allowedPaths.mapM allowedPath? with
  | some allowed, some paths => some ⟨allowed, paths⟩
  | _, _ => none

def ofTable? (t : Table) : Option Settings :=
  (Draft.ofValue (.table t)).toOption.bind ofDraft?

end Settings

structure Config where
  settings : Settings
  rules : List Rule
  /-- The file that the settings are from. -/
  source : Option Path
  deriving DecidableEq, Repr

namespace Config

def default : Config :=
  ⟨.default, [], none⟩

def isDefault (c : Config) : Bool :=
  c.settings = .default && c.source.isNone

end Config

def World.configOf (w : World) (settings : Settings) (source : Option Path) :
    Except Failure Config :=
  (w.rulesOf settings.allowedPaths).map fun rules => ⟨settings, rules, source⟩

end DeletionGuard
