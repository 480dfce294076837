import DeletionGuard.Decimal.Layout
import DeletionGuard.Decimal.Limit
import DeletionGuard.Text.Quoted

/-!
Values of a configuration file, and the text by which a message shows one.
-/
namespace DeletionGuard.Toml

structure Date where
  year : Nat
  month : Nat
  day : Nat
  deriving DecidableEq, Repr

structure Time where
  hour : Nat
  minute : Nat
  second : Nat
  microsecond : Nat
  deriving DecidableEq, Repr

inductive Value where
  /-- The mark of a setting that is not made. -/
  | nothing
  | boolean (b : Bool)
  | integer (n : Int)
  | float (x : Float)
  | string (s : String)
  | date (d : Date)
  | time (t : Time)
  /-- A date with a time, and the minutes by which it is ahead of universal time. -/
  | moment (d : Date) (t : Time) (offset : Option Int)
  | array (items : List Value)
  | table (entries : List (String × Value))
  deriving Inhabited

/-- Entries by name, in the order in which they were made. -/
abbrev Table := List (String × Value)

def listed (ns : List Nat) : String :=
  String.ofList ([',', ' '].intercalate (ns.map fun n => (Nat.repr n).toList))

def Date.parts (d : Date) : List Nat :=
  [d.year, d.month, d.day]

/-- The parts of a time. Seconds are left out if nothing follows the minutes. -/
def Time.parts (t : Time) : List Nat :=
  [t.hour, t.minute] ++
    if t.microsecond ≠ 0 then [t.second, t.microsecond]
    else if t.second ≠ 0 then [t.second]
    else []

/-- The text of an offset in minutes; a negative one is counted from the day before. -/
def offsetText (minutes : Int) : String :=
  if minutes = 0 then "datetime.timezone.utc"
  else
    let days := if minutes < 0 then "days=-1, " else ""
    let seconds := (minutes * 60) % 86400
    "datetime.timezone(datetime.timedelta(" ++ days ++ "seconds=" ++ Int.repr seconds ++ "))"

mutual

def Value.text : Value → String
  | .nothing => "None"
  | .boolean b => if b then "True" else "False"
  | .integer n => Int.repr n
  | .float x => Decimal.Layout.values.double x
  | .string s => Text.quoted s
  | .date d => "datetime.date(" ++ listed d.parts ++ ")"
  | .time t => "datetime.time(" ++ listed t.parts ++ ")"
  | .moment d t none => "datetime.datetime(" ++ listed (d.parts ++ t.parts) ++ ")"
  | .moment d t (some minutes) =>
    "datetime.datetime(" ++ listed (d.parts ++ t.parts) ++ ", tzinfo=" ++ offsetText minutes ++ ")"
  | .array items => "[" ++ itemsText items ++ "]"
  | .table entries => "\x7b" ++ entriesText entries ++ "\x7d"

def itemsText : List Value → String
  | [] => ""
  | [v] => v.text
  | v :: rest => v.text ++ ", " ++ itemsText rest

def entriesText : List (String × Value) → String
  | [] => ""
  | [(k, v)] => Text.quoted k ++ ": " ++ v.text
  | (k, v) :: rest => Text.quoted k ++ ": " ++ v.text ++ ", " ++ entriesText rest

end

mutual

/-- Whether a value can be written: no integer in it has too many digits. -/
def Value.isWritable : Value → Bool
  | .integer n => Decimal.withinLimit n
  | .array items => itemsWritable items
  | .table entries => entriesWritable entries
  | _ => true

def itemsWritable : List Value → Bool
  | [] => true
  | v :: rest => v.isWritable && itemsWritable rest

def entriesWritable : List (String × Value) → Bool
  | [] => true
  | (_, v) :: rest => v.isWritable && entriesWritable rest

end

def Value.isNested : Value → Bool
  | .array _ | .table _ => true
  | _ => false

/-- The value of a setting; one that is not made counts as absent. -/
def Table.setting (t : Table) (key : String) : Option Value :=
  match List.lookup key t with
  | some .nothing => none
  | v => v

end DeletionGuard.Toml
