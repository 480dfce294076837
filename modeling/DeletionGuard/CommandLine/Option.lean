/-!
Options on a command line. A long option stands alone or with its value behind `=` or in the next
word; letters may share one dash, and the last of them may take the rest of the word or the next
word as its value. `--` ends the options, and a lone `-` is an argument.
-/
namespace DeletionGuard.CommandLine

inductive Misuse where
  | noSuchOption
  /-- A value is missing, or given to an option that takes none. -/
  | badValue
  | noPath
  /-- The configuration file cannot be one. -/
  | badConfig
  /-- A word too many, or a command that does not exist. -/
  | badWord
  /-- There is nothing on the command line. -/
  | nothingAsked
  deriving DecidableEq, Repr

inductive Switch where
  | recursive
  | force
  | dryRun
  | trash
  | config
  | verbose
  | version
  | help
  deriving DecidableEq, Repr

namespace Switch

def long : Switch → String
  | recursive => "--recursive"
  | force => "--force"
  | dryRun => "--dry-run"
  | trash => "--trash"
  | config => "--config"
  | verbose => "--verbose"
  | version => "--version"
  | help => "--help"

def letters : Switch → List Char
  | recursive => ['r', 'R']
  | force => ['f']
  | dryRun => ['n']
  | config => ['c']
  | verbose => ['v']
  | version => ['V']
  | trash | help => []

def takesValue : Switch → Bool
  | config => true
  | _ => false

end Switch

/-- An option as it was given; one that takes no value has the empty text. -/
abbrev Given := Switch × String

structure Words where
  options : List Given
  arguments : List String
  deriving DecidableEq, Repr

namespace Words

def addOptions (gs : List Given) (ws : Words) : Words :=
  { ws with options := gs ++ ws.options }

def addArgument (a : String) (ws : Words) : Words :=
  { ws with arguments := a :: ws.arguments }

def has (ws : Words) (s : Switch) : Bool :=
  ws.options.any (·.1 = s)

def value? (ws : Words) (s : Switch) : Option String :=
  ((ws.options.filter (·.1 = s)).getLast?).map Prod.snd

end Words

abbrev Piece := List Given × Option Switch

def readLetters (known : List Switch) : List Char → Except Misuse Piece
  | [] => .ok ([], none)
  | c :: cs =>
    match known.find? (·.letters.contains c) with
    | none => .error .noSuchOption
    | some s =>
      if s.takesValue then
        .ok (if cs = [] then ([], some s) else ([(s, String.ofList cs)], none))
      else (readLetters known cs).map fun (gs, next) => ((s, "") :: gs, next)

def attached? (word : List Char) : Option String :=
  match word.dropWhile (· ≠ '=') with
  | [] => none
  | _ :: cs => some (String.ofList cs)

def readOption (known : List Switch) (word : List Char) : Except Misuse Piece :=
  match known.find? (·.long.toList = word.takeWhile (· ≠ '=')) with
  | some s =>
    match s.takesValue, attached? word with
    | true, some v => .ok ([(s, v)], none)
    | true, none => .ok ([], some s)
    | false, some _ => .error .badValue
    | false, none => .ok ([(s, "")], none)
  | none =>
    if ['-', '-'].isPrefixOf word then .error .noSuchOption else readLetters known (word.drop 1)

def isOption (word : String) : Bool :=
  match word.toList with
  | '-' :: _ :: _ => true
  | _ => false

/-- The words of a command line sorted by the options that are known. Where arguments and options
do not mix, the first argument ends the options. -/
def sort (known : List Switch) (mixed : Bool) : List String → Except Misuse Words
  | [] => .ok ⟨[], []⟩
  | word :: rest =>
    if word = "--" then .ok ⟨[], rest⟩
    else if !isOption word then
      if mixed then (sort known mixed rest).map (Words.addArgument word)
      else .ok ⟨[], word :: rest⟩
    else
      match readOption known word.toList with
      | .error m => .error m
      | .ok (gs, none) => (sort known mixed rest).map (Words.addOptions gs)
      | .ok (gs, some s) =>
        match rest with
        | [] => .error .badValue
        | v :: rest => (sort known mixed rest).map (Words.addOptions (gs ++ [(s, v)]))

end DeletionGuard.CommandLine
