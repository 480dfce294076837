import DeletionGuard.Config.Load

/-!
The configuration file that is written for a start, and the directories above it.
-/
namespace DeletionGuard

def Config.template : String :=
  Text.glue '\n'
    ["# safe-rm configuration",
     "# Location: ~/.config/safe-rm/config.toml (override with $SAFE_RM_CONFIG)",
     "",
     "# Allow deleting any file inside the current project without checking",
     "# git status. Paths outside the project are refused either way.",
     "# Set to false to only allow clean or ignored files.",
     "allow_project_deletion = true",
     "",
     "# Directories where deletion is always permitted, bypassing the project",
     "# boundary and git status checks. Supports ~ for the home directory.",
     "[[allowed_paths]]",
     "path = \"~/.claude/skills\"",
     "recursive = true        # any depth below the directory",
     "",
     "# Example: only direct children of /tmp/logs",
     "# [[allowed_paths]]",
     "# path = \"/tmp/logs\"",
     "# recursive = false",
     ""]

namespace World

def ensureDirectory (w : World) (p : Path) : World × Option Failure :=
  match w.mkdir p.text with
  | .ok w => (w, none)
  | .error f =>
    if f.errno? = some .noEntry || !f.isSystem then (w, some f)
    else
      match w.isDir p.text with
      | .ok true => (w, none)
      | .ok false => (w, some f)
      | .error g => (w, some g)

def ensureNested : Nat → World → Path → World × Option Failure
  | 0, w, p => w.ensureDirectory p
  | n + 1, w, p =>
    match w.mkdir p.text with
    | .error (.call .noEntry _) =>
      match ensureNested n w p.parent with
      | (w, some f) => (w, some f)
      | (w, none) => w.ensureDirectory p
    | _ => w.ensureDirectory p

def ensureDirectories (w : World) (p : Path) : World × Option Failure :=
  ensureNested p.parts.length w p

/-- A file written with all directories above it. What was made stays if a later step fails. -/
def writeNested (w : World) (p : Path) (text : String) : World × Option Failure :=
  match w.ensureDirectories p.parent with
  | (w, some f) => (w, some f)
  | (w, none) =>
    match w.write p.text text.toUTF8 with
    | .ok w => (w, none)
    | .error f => (w, some f)

end World
end DeletionGuard
