import DeletionGuard.Proofs.Git.Ledger
import DeletionGuard.Proofs.Text.Cut

/-!
The listing of changes as git writes it, and what is read back. Git puts the former path behind a
record if either letter of its code says renamed or copied; reading expects it for the first letter
only. The main statement tells which listings are read back exactly.
-/
namespace DeletionGuard.Git

namespace Change

def isMove (letter : Char) : Bool :=
  letter = 'R' || letter = 'C'

def isDirectory (c : Change) : Bool :=
  Text.endsWith c.path "/"

def key (c : Change) : String :=
  if c.isDirectory then Text.stripEnd '/' c.path else c.path

def token (c : Change) : String :=
  String.ofList [c.index, c.worktree, ' '] ++ c.path

def last? (directories : Bool) (key : String) (cs : List Change) : Option Change :=
  (cs.filter fun c => c.isDirectory = directories && c.key = key).getLast?

end Change

/-- A change together with the path it had before, if git gives one. -/
structure Record where
  change : Change
  former : Option String
  deriving DecidableEq, Repr

namespace Record

def tokens (r : Record) : List String :=
  r.change.token :: r.former.toList

/-- What git promises about a record. -/
structure Valid (r : Record) : Prop where
  index : r.change.index ≠ Text.nul
  worktree : r.change.worktree ≠ Text.nul
  path : r.change.path ≠ "" ∧ Text.nul ∉ r.change.path.toList
  former : ∀ p ∈ r.former, p ≠ "" ∧ Text.nul ∉ p.toList
  /-- The former path is there exactly if the change is a move in the index or the work tree. -/
  moved : r.former.isSome = (Change.isMove r.change.index || Change.isMove r.change.worktree)

def stray (r : Record) : Option Change :=
  r.former.bind Change.ofToken?

/-- The change that the former path is taken for. A move in the index keeps it from being read. -/
def misread (r : Record) : Option Change :=
  if r.change.hasFormerPath then none else r.stray

end Record

def listing (rs : List Record) : String :=
  (rs.flatMap Record.tokens).foldr (fun token rest => token ++ String.singleton Text.nul ++ rest) ""

/-- Exactly the recorded paths are there, each once, with the status of the last record for it. -/
structure Changes.Describe (cs : Changes) (given : List Change) : Prop where
  files : ∀ path, cs.files.lookup path =
    (Change.last? false path given).bind fun c => Status.ofCode? [c.index, c.worktree]
  directories : ∀ path, cs.directories.lookup path =
    (Change.last? true path given).bind fun c => Status.ofCode? [c.index, c.worktree]
  filesOnce : (cs.files.map Prod.fst).Nodup
  directoriesOnce : (cs.directories.map Prod.fst).Nodup

namespace Change

theorem ofToken?_token {c : Change} (h : c.path ≠ "") : ofToken? c.token = some c := by
  obtain ⟨x, y, path⟩ := c
  have htoken : (token ⟨x, y, path⟩).toList = x :: y :: ' ' :: path.toList := by
    simp [token]
  have hne : path.toList ≠ [] := by simpa using h
  obtain ⟨d, ds, hd⟩ := List.exists_cons_of_ne_nil hne
  rw [ofToken?, htoken, hd]
  simp [← hd]

theorem nul_not_mem_token {c : Change} (hx : c.index ≠ Text.nul) (hy : c.worktree ≠ Text.nul)
    (hp : Text.nul ∉ c.path.toList) : Text.nul ∉ c.token.toList := by
  have hblank : Text.nul ≠ ' ' := by decide
  simp [token, hx.symm, hy.symm, hp, hblank]

end Change

/-- What is read of records in turn. A change that is taken from a former path may claim the token
behind it: the next record is then lost, and its former path is read in its place. -/
def readings : Bool → List Record → List Change
  | _, [] => []
  | false, r :: rs =>
    r.change :: (r.misread.toList ++ readings (r.misread.any Change.hasFormerPath) rs)
  | true, r :: rs => r.stray.toList ++ readings (r.stray.any Change.hasFormerPath) rs

theorem Record.Valid.nul_not_mem {r : Record} (h : r.Valid) :
    ∀ t ∈ r.tokens, Text.nul ∉ t.toList := by
  intro t ht
  obtain rfl | ht := List.mem_cons.mp ht
  · exact Change.nul_not_mem_token h.index h.worktree h.path.2
  · exact (h.former t (Option.mem_toList.mp ht)).2

theorem cut_listing {rs : List Record} (h : ∀ r ∈ rs, r.Valid) :
    Text.cut Text.nul (listing rs) = rs.flatMap Record.tokens ++ [""] := by
  have hnul : ∀ t ∈ rs.flatMap Record.tokens, Text.nul ∉ t.toList := by
    intro t ht
    obtain ⟨r, hr, ht⟩ := List.mem_flatMap.mp ht
    exact (h r hr).nul_not_mem t ht
  unfold listing
  generalize rs.flatMap Record.tokens = ts at hnul ⊢
  induction ts with
  | nil => rfl
  | cons t ts ih =>
    rw [List.foldr_cons, Text.cut_append_cons (hnul t List.mem_cons_self),
      ih fun u hu => hnul u (List.mem_cons_of_mem t hu), List.cons_append]

theorem ofTokens_former (former : Option String) (rest : List String) :
    Change.ofTokens (former.toList ++ rest) = (former.bind Change.ofToken?).toList ++
      Change.ofTokens
        (if (former.bind Change.ofToken?).any Change.hasFormerPath then rest.tail else rest) := by
  cases former with
  | none => simp
  | some p =>
    cases hp : Change.ofToken? p with
    | none => simp [Change.ofTokens, hp]
    | some c =>
      cases hmove : c.hasFormerPath with
      | false => simp [Change.ofTokens, hp, hmove]
      | true => cases rest <;> simp [Change.ofTokens, hp, hmove]

theorem Record.Valid.ofTokens_append {r : Record} (h : r.Valid) (rest : List String) :
    Change.ofTokens (r.tokens ++ rest) = r.change :: (r.misread.toList ++
      Change.ofTokens (if r.misread.any Change.hasFormerPath then rest.tail else rest)) := by
  have htoken := Change.ofToken?_token h.path.1
  cases hindex : r.change.hasFormerPath with
  | false =>
    have hmisread : r.misread = r.former.bind Change.ofToken? := by
      rw [misread, hindex, if_neg Bool.false_ne_true, stray]
    rw [tokens, List.cons_append, Change.ofTokens, htoken, hmisread]
    simp only [hindex, Bool.false_eq_true, if_false]
    rw [ofTokens_former]
  | true =>
    have hsome : r.former.isSome = true := by
      rw [h.moved, show Change.isMove r.change.index = true from hindex, Bool.true_or]
    obtain ⟨p, hp⟩ := Option.isSome_iff_exists.mp hsome
    simp [tokens, hp, Change.ofTokens, htoken, hindex, misread]

theorem ofTokens_listing {rs : List Record} (h : ∀ r ∈ rs, r.Valid) (lost : Bool) :
    Change.ofTokens (if lost then (rs.flatMap Record.tokens ++ [""]).tail
      else rs.flatMap Record.tokens ++ [""]) = readings lost rs := by
  induction rs generalizing lost with
  | nil => cases lost <;> rfl
  | cons r rs ih =>
    have hrs := ih fun q hq => h q (List.mem_cons_of_mem r hq)
    rw [List.flatMap_cons, List.append_assoc]
    cases lost with
    | false =>
      rw [if_neg Bool.false_ne_true, (h r List.mem_cons_self).ofTokens_append, hrs, readings]
    | true =>
      -- without its first token the record begins with its former path
      rw [if_pos rfl, Record.tokens, List.cons_append, List.tail_cons, ofTokens_former, hrs]
      rfl

theorem parse_listing {rs : List Record} (h : ∀ r ∈ rs, r.Valid) :
    Changes.parse (listing rs) = (readings false rs).foldl Changes.add ⟨[], []⟩ := by
  rw [Changes.parse, cut_listing h, ← ofTokens_listing h, if_neg Bool.false_ne_true]

namespace Changes

def ofChanges (given : List Change) : Changes :=
  given.foldl add ⟨[], []⟩

def side (cs : Changes) (directories : Bool) : Ledger :=
  if directories then cs.directories else cs.files

theorem side_add (cs : Changes) (c : Change) (d : Bool) :
    (cs.add c).side d =
      if c.isDirectory = d then (cs.side d).record c.key c.status else cs.side d := by
  unfold add Change.key Change.isDirectory side
  by_cases hdir : Text.endsWith c.path "/" = true
  · cases d <;> simp [hdir]
  · cases d <;> simp [hdir]

theorem nodup_side {given : List Change} {cs : Changes}
    (h : ∀ d, ((cs.side d).map Prod.fst).Nodup) (d : Bool) :
    (((given.foldl add cs).side d).map Prod.fst).Nodup := by
  induction given generalizing cs with
  | nil => exact h d
  | cons c given ih =>
    apply ih
    intro d
    rw [side_add]
    by_cases hc : c.isDirectory = d
    · rw [if_pos hc]
      exact Ledger.nodup_record (h d) c.key c.status
    · rw [if_neg hc]
      exact h d

end Changes

namespace Change

theorem last?_cons (d : Bool) (key : String) (c : Change) (cs : List Change) :
    last? d key (c :: cs) =
      (last? d key cs).or (if c.isDirectory = d ∧ c.key = key then some c else none) := by
  unfold last?
  by_cases h : c.isDirectory = d ∧ c.key = key
  · rw [List.filter_cons_of_pos (by simpa using h), List.getLast?_cons, if_pos h]
    cases (cs.filter _).getLast? <;> simp
  · rw [List.filter_cons_of_neg (by simpa using h), if_neg h, Option.or_none]

theorem ofCode?_eq (c : Change) : Status.ofCode? [c.index, c.worktree] = some c.status := by
  have hsome : (Status.ofCode? [c.index, c.worktree]).isSome := by
    unfold Status.ofCode?
    grind
  obtain ⟨s, hs⟩ := Option.isSome_iff_exists.mp hsome
  rw [status, hs, Option.getD_some]

end Change

theorem Changes.lookup_foldl (given : List Change) (cs : Changes) (d : Bool) (key : String) :
    ((given.foldl add cs).side d).lookup key =
      ((Change.last? d key given).map Change.status).or ((cs.side d).lookup key) := by
  induction given generalizing cs with
  | nil => simp [Change.last?]
  | cons c given ih =>
    rw [List.foldl_cons, ih, Change.last?_cons, side_add]
    by_cases hdir : c.isDirectory = d
    · by_cases hkey : c.key = key
      · rw [if_pos hdir, if_pos ⟨hdir, hkey⟩, Ledger.lookup_record, if_pos hkey.symm]
        cases Change.last? d key given <;> simp
      · rw [if_pos hdir, if_neg fun h => hkey h.2, Ledger.lookup_record,
          if_neg fun h => hkey h.symm, Option.or_none]
    · rw [if_neg hdir, if_neg fun h => hdir h.1, Option.or_none]

theorem Changes.lookup_ofChanges (given : List Change) (d : Bool) (key : String) :
    ((ofChanges given).side d).lookup key = (Change.last? d key given).map Change.status := by
  rw [ofChanges, lookup_foldl]
  cases d <;> simp [side]

theorem Changes.describe_iff (cs : Changes) (given : List Change) :
    cs.Describe given ↔ ∀ d, ((cs.side d).map Prod.fst).Nodup ∧
      ∀ key, (cs.side d).lookup key = (Change.last? d key given).map Change.status := by
  have hcode (o : Option Change) :
      (o.bind fun c => Status.ofCode? [c.index, c.worktree]) = o.map Change.status := by
    cases o with
    | none => rfl
    | some c => exact Change.ofCode?_eq c
  constructor
  · intro h d
    cases d with
    | false => exact ⟨h.filesOnce, fun key => (h.files key).trans (hcode _)⟩
    | true => exact ⟨h.directoriesOnce, fun key => (h.directories key).trans (hcode _)⟩
  · intro h
    exact
      { files := fun key => ((h false).2 key).trans (hcode _).symm
        directories := fun key => ((h true).2 key).trans (hcode _).symm
        filesOnce := (h false).1
        directoriesOnce := (h true).1 }

/-- Under every key the same status counts in the end. -/
def SameLast (cs given : List Change) : Prop :=
  ∀ d key, (Change.last? d key cs).map Change.status = (Change.last? d key given).map Change.status

theorem Changes.describe_ofChanges_iff (cs given : List Change) :
    (ofChanges cs).Describe given ↔ SameLast cs given := by
  have hnodup : ∀ d, (((ofChanges cs).side d).map Prod.fst).Nodup := by
    refine nodup_side fun d => ?_
    cases d <;> simp [side]
  rw [describe_iff]
  constructor
  · intro h d key
    rw [← lookup_ofChanges]
    exact (h d).2 key
  · intro h d
    exact ⟨hnodup d, fun key => (lookup_ofChanges cs d key).trans (h d key)⟩

/-- A listing is read back exactly if and only if what is read of its records leaves the same status
under every key. -/
theorem parse_listing_describes_iff {rs : List Record} (h : ∀ r ∈ rs, r.Valid) :
    (Changes.parse (listing rs)).Describe (rs.map Record.change) ↔
      SameLast (readings false rs) (rs.map Record.change) := by
  rw [parse_listing h]
  exact Changes.describe_ofChanges_iff _ _

theorem parse_listing_describes_moves :
    (Changes.parse (listing [⟨⟨'R', ' ', "b"⟩, some "?? a"⟩, ⟨⟨' ', 'C', "d"⟩, some "c"⟩,
      ⟨⟨'M', ' ', "b"⟩, none⟩])).Describe
        [⟨'R', ' ', "b"⟩, ⟨' ', 'C', "d"⟩, ⟨'M', ' ', "b"⟩] := by
  have hmoved : (⟨⟨'R', ' ', "b"⟩, some "?? a"⟩ : Record).Valid :=
    ⟨by decide, by decide, by decide, by decide, by decide⟩
  have hcopied : (⟨⟨' ', 'C', "d"⟩, some "c"⟩ : Record).Valid :=
    ⟨by decide, by decide, by decide, by decide, by decide⟩
  have hmodified : (⟨⟨'M', ' ', "b"⟩, none⟩ : Record).Valid :=
    ⟨by decide, by decide, by decide, by decide, by decide⟩
  exact (parse_listing_describes_iff (by simp [hmoved, hcopied, hmodified])).mpr fun _ _ => rfl

/-- The former path of a file that was renamed in the work tree alone is read as a staged file. -/
theorem not_describe_renamed_in_work_tree :
    ∃ r : Record, r = ⟨⟨' ', 'R', "new.txt"⟩, some "old.txt"⟩ ∧ r.Valid ∧
      ¬(Changes.parse (listing [r])).Describe [r.change] := by
  refine ⟨_, rfl, ⟨by decide, by decide, by decide, by decide, by decide⟩, ?_⟩
  intro h
  have hfound : (Changes.parse (listing [⟨⟨' ', 'R', "new.txt"⟩, some "old.txt"⟩])).files.lookup
      ".txt" = some .staged := by
    decide +kernel
  have hgiven := h.files ".txt"
  rw [hfound] at hgiven
  revert hgiven
  decide +kernel

end DeletionGuard.Git
