import DeletionGuard.Proofs.FileTree.Ending
import DeletionGuard.Proofs.Target.Sighting

/-!
What the system finds at an argument as it is written, and what the argument is resolved to. The two
agree but for arguments that are empty, for those that end in a dot and name no directory, and for
links named with a slash at which the system finds nothing.
-/
namespace DeletionGuard

def Kind.ofCall : Except Failure Entry → Option Kind
  | .ok e => some (.ofEntry e)
  | .error (.call .noEntry _) | .error (.call .notDirectory _) => some .missing
  | .error _ => none

namespace World
open FileTree
variable {w : World} {base : Path} {raw text : String} {t : Target} {start l m : Location} {n : Nat}
  {front : List String} {e : Entry} {k : Kind}

/-- The kind of what the system finds at an argument as it is written, from a base directory. -/
def sight (w : World) (base : Path) (raw : String) : Option Kind :=
  Kind.ofCall (({ w with cwd := base.text } : World).lstat (w.expandUser raw))

structure IsBase (w : World) (base : Path) : Prop where
  proper : base.Proper
  absolute : base.isAbsolute = true
  directory : ∃ deny, w.stat base.text = .ok (.dir deny)

/-- How the walk along a text, as it is written, and the walk along the absolute path that stands
for it come to the same directory. -/
structure Footing (w : World) (base : Path) (text : String) (front : List String) (start : Location)
    (n : Nat) : Prop where
  isDir : w.tree.isDir start = true
  bound : n ≤ maxLinks
  parts : (base.join (Path.ofString text)).parts = front ++ withoutDots (Route.ofString text).steps
  reached : w.tree.walk .follow maxLinks [] front front.isEmpty = .ok start
  onward : ∀ q slashed, q ≠ [] →
    w.tree.walk .keep maxLinks [] (front ++ q) slashed = w.tree.walk .keep n start q slashed
  written : ({ w with cwd := base.text } : World).locate .keep text =
    if Text.holds Text.nul text then .error .nulInPath
    else if maxPath ≤ text.utf8ByteSize then .error (.call .nameTooLong text)
    else (w.tree.walk .keep maxLinks start (Route.ofString text).steps
      (Route.ofString text).slashed).mapError (.call · text)

theorem locate_from_base (hne : text ≠ "") {r : Except Errno Location}
    (hfound : (if (Route.ofString text).absolute then
        w.tree.follow .keep [] (Route.ofString text)
      else ({ w with cwd := base.text } : World).cwdLocation.bind fun start =>
        w.tree.follow .keep start (Route.ofString text)) = r) :
    ({ w with cwd := base.text } : World).locate .keep text =
      if Text.holds Text.nul text then .error .nulInPath
      else if maxPath ≤ text.utf8ByteSize then .error (.call .nameTooLong text)
      else r.mapError (.call · text) := by
  unfold locate
  split
  · rfl
  · split
    · rfl
    · rw [← hfound]

theorem exists_footing (hbase : w.IsBase base) (hne : text ≠ "") :
    ∃ front start n, Footing w base text front start n := by
  by_cases habs : (Route.ofString text).absolute = true
  · refine ⟨[], [], maxLinks, isDir_nil _, Nat.le_refl _, ?_, by simp, fun _ _ _ => rfl, ?_⟩
    · rw [Path.join, Path.isAbsolute_ofString, if_pos habs, Path.parts_ofString, List.nil_append]
    · refine locate_from_base hne ?_
      rw [if_pos habs, follow, if_pos habs]
  · obtain ⟨deny, hstat⟩ := hbase.directory
    obtain ⟨start, hstart, hfind⟩ := entryAt_eq_ok.mp hstat
    have hwalk := walk_of_locate hbase.proper hbase.absolute hstart
    obtain ⟨j, hj, happend⟩ := exists_walk_append hwalk
    refine ⟨base.parts, start, maxLinks - j, isDir_iff.mpr ⟨deny, hfind⟩, Nat.sub_le _ _, ?_, hwalk,
      fun q slashed hq => ?_, ?_⟩
    · rw [Path.join, Path.isAbsolute_ofString, if_neg habs, Path.parts_ofString]
    · have hrun := (happend .keep q slashed hq).1 (maxLinks - j)
      rwa [Nat.add_sub_cancel' hj] at hrun
    · refine locate_from_base hne ?_
      have hcwd : ({ w with cwd := base.text } : World).cwdLocation = .ok start := by
        rw [cwdLocation, Path.route_text hbase.proper hbase.absolute]
        exact hwalk
      rw [if_neg habs, hcwd, Except.bind, follow, if_neg habs]

def written (w : World) (start : Location) (text : String) : Except Errno Location :=
  w.tree.walk .keep maxLinks start (Route.ofString text).steps (Route.ofString text).slashed

theorem walk_of_sight (hf : Footing w base (w.expandUser raw) front start n)
    (h : w.sight base raw = some k) :
    (∃ m e, w.written start (w.expandUser raw) = .ok m ∧ w.tree.find? m = some e ∧
      k = .ofEntry e) ∨
    ∃ x, w.written start (w.expandUser raw) = .error x ∧ (x = .noEntry ∨ x = .notDirectory) ∧
      k = .missing := by
  unfold sight lstat entryAt at h
  rw [hf.written] at h
  split at h
  · exact absurd h nofun
  · split at h
    · exact absurd h nofun
    · change Kind.ofCall (((w.written start (w.expandUser raw)).mapError _).bind _) = some k at h
      cases hwalk : w.written start (w.expandUser raw) with
      | ok m =>
        have hfind : w.tree.Occupied m := by
          unfold written at hwalk
          cases hslashed : (Route.ofString (w.expandUser raw)).slashed with
          | true =>
            rw [hslashed] at hwalk
            have hkeep : Ending.keep ≠ .create := nofun
            exact occupied_of_isDir (isDir_of_walk hkeep (.inl rfl) hwalk)
          | false =>
            rw [hslashed] at hwalk
            exact occupied_of_walk (solid_of_isDir hf.isDir) hwalk
        obtain ⟨e, he⟩ := hfind
        rw [hwalk] at h
        refine .inl ⟨m, e, rfl, he, ?_⟩
        simpa [Except.bind, he, Kind.ofCall] using h.symm
      | error x =>
        rw [hwalk] at h
        refine .inr ⟨x, rfl, ?_⟩
        cases x with
        | noEntry => exact ⟨.inl rfl, (Option.some.inj h).symm⟩
        | notDirectory => exact ⟨.inr rfl, (Option.some.inj h).symm⟩
        | _ => exact absurd h nofun

def straight (w : World) (front : List String) (text : String) : Except Errno Location :=
  w.tree.walk .keep maxLinks [] (front ++ withoutDots (Route.ofString text).steps)
    (front ++ withoutDots (Route.ofString text).steps).isEmpty

theorem straight_eq (hf : Footing w base text front start n) {steps : List String} {i : Nat}
    (hsteps : (Route.ofString text).steps = steps ++ List.replicate i ".")
    (hlast : steps.getLast? ≠ some ".") (hne : steps ≠ []) :
    w.straight front text = w.tree.walk .keep n start steps false := by
  have hnil : withoutDots steps ≠ [] := fun h => hne ((withoutDots_eq_nil hlast).mp h)
  unfold straight
  rw [hsteps, withoutDots_append_dots,
    show (front ++ withoutDots steps).isEmpty = false by simp [hnil], hf.onward _ _ hnil]
  exact walk_withoutDots (p := []) hlast

theorem written_of_isDir (hf : Footing w base text front start n)
    (hwalk : w.straight front text = .ok l) (hdir : w.tree.isDir l = true) :
    (∃ m, w.tree.isDir m = true ∧ w.written start text = .ok m) ∨
      w.written start text = .error .noAccess := by
  obtain ⟨steps, i, hsteps, hlast⟩ := exists_dots (Route.ofString text).steps
  unfold written
  rw [hsteps]
  by_cases hne : steps = []
  · subst hne
    exact (walk_dots hf.isDir i).imp (fun h => ⟨start, hf.isDir, h⟩) id
  · rw [straight_eq hf hsteps hlast hne] at hwalk
    by_cases hasked : i ≠ 0 ∨ (Route.ofString text).slashed = true
    · obtain h | h := walk_append_dots hdir hwalk i hasked
      · exact .inl ⟨l, hdir, walk_le hf.bound h nofun⟩
      · exact .inr (walk_le hf.bound h nofun)
    · obtain ⟨rfl, hslashed⟩ : i = 0 ∧ (Route.ofString text).slashed = false := by
        simpa [not_or] using hasked
      rw [List.replicate_zero, List.append_nil, hslashed]
      exact .inl ⟨l, hdir, walk_le hf.bound hwalk nofun⟩

theorem written_eq_straight (hf : Footing w base text front start n)
    (hlast : (Route.ofString text).steps.getLast? ≠ some ".")
    (hne : (Route.ofString text).steps ≠ []) (hslashed : (Route.ofString text).slashed = false)
    {r : Except Errno Location} (hwalk : w.straight front text = r)
    (hr : r ≠ .error .tooManyLinks) :
    w.written start text = r := by
  have hsteps : (Route.ofString text).steps =
      (Route.ofString text).steps ++ List.replicate 0 "." := by simp
  rw [straight_eq hf hsteps hlast hne] at hwalk
  unfold written
  rw [hslashed]
  exact walk_le hf.bound hwalk hr

theorem straight_of_written (hf : Footing w base text front start n)
    (h : w.written start text = .ok m) :
    (∃ l, w.straight front text = .ok l) ∨ w.straight front text = .error .tooManyLinks := by
  have hkeep : Ending.keep ≠ .create := nofun
  obtain ⟨steps, i, hsteps, hlast⟩ := exists_dots (Route.ofString text).steps
  by_cases hne : steps = []
  · subst hne
    have hfollow : Ending.follow ≠ .create := nofun
    have hdots : withoutDots (Route.ofString text).steps = [] := by
      rw [hsteps, withoutDots_append_dots]
      rfl
    unfold straight
    rw [hdots, List.append_nil]
    by_cases hfront : front = []
    · subst hfront
      exact .inl ⟨[], by simp⟩
    · have hreached := hf.reached
      rw [List.isEmpty_eq_false_iff.mpr hfront] at hreached ⊢
      rw [← List.append_nil front] at hreached
      exact .inl (walk_keep_of_append hfollow hreached)
  · unfold written at h
    rw [hsteps] at h
    obtain ⟨l, hl⟩ := walk_keep_of_append hkeep h
    rw [straight_eq hf hsteps hlast hne]
    by_cases hmany : w.tree.walk .keep n start steps false = .error .tooManyLinks
    · exact .inr hmany
    · rw [walk_le hf.bound rfl hmany] at hl
      exact .inl ⟨l, hl⟩

theorem straight_of_lstat (hbase : w.IsBase base)
    (hf : Footing w base (w.expandUser raw) front start n)
    (hseen : w.lstat (w.absolutePath base raw).text = .ok e) :
    ∃ m, w.straight front (w.expandUser raw) = .ok m ∧ w.tree.find? m = some e := by
  obtain ⟨m, hm, hfind⟩ := entryAt_eq_ok.mp hseen
  have hwalk := walk_of_locate (proper_absolutePath hbase.proper)
    (isAbsolute_absolutePath hbase.absolute) hm
  rw [absolutePath, hf.parts] at hwalk
  exact ⟨m, hwalk, hfind⟩

theorem straight_of_lstat_error {errno : Errno} {path : String} (hbase : w.IsBase base)
    (hf : Footing w base (w.expandUser raw) front start n)
    (hseen : w.lstat (w.absolutePath base raw).text = .error (.call errno path))
    (habsent : errno = .noEntry ∨ errno = .notDirectory) :
    w.straight front (w.expandUser raw) = .error errno := by
  have hp : (w.absolutePath base raw).Proper := proper_absolutePath hbase.proper
  have ha : (w.absolutePath base raw).isAbsolute = true := isAbsolute_absolutePath hbase.absolute
  have hparts : (w.absolutePath base raw).parts =
      front ++ withoutDots (Route.ofString (w.expandUser raw)).steps := hf.parts
  obtain hlocate | ⟨l, hl, hnone, -⟩ := entryAt_eq_error hseen
  · rw [locate_text hp ha] at hlocate
    split at hlocate
    · exact absurd hlocate nofun
    · split at hlocate
      · cases hlocate
        exact absurd habsent (by decide)
      · rw [hparts] at hlocate
        change (w.straight front (w.expandUser raw)).mapError _ = _ at hlocate
        cases hwalk : w.straight front (w.expandUser raw) with
        | ok l =>
          rw [hwalk] at hlocate
          exact absurd hlocate nofun
        | error x =>
          rw [hwalk] at hlocate
          cases hlocate
          rfl
  · have hwalk := walk_of_locate hp ha hl
    by_cases hnil : (w.absolutePath base raw).parts = []
    · rw [hnil] at hwalk
      obtain rfl : [] = l := by simpa using hwalk
      rw [find?_nil] at hnone
      exact absurd hnone nofun
    · rw [List.isEmpty_eq_false_iff.mpr hnil] at hwalk
      obtain ⟨e, he⟩ := occupied_of_walk (solid_nil _) hwalk
      rw [hnone] at he
      exact absurd he nofun

theorem getLast?_dropWhile {p : Char → Bool} {cs : List Char} (h : cs.dropWhile p ≠ []) :
    (cs.dropWhile p).getLast? = cs.getLast? := by
  obtain ⟨front, hfront⟩ := List.dropWhile_suffix (l := cs) p
  have hlast := congrArg List.getLast? hfront
  rw [List.getLast?_append, List.getLast?_eq_some_getLast h, Option.some_or] at hlast
  rw [← hlast, List.getLast?_eq_some_getLast h]

theorem getLast?_stripEnd (s : String) : (Text.stripEnd '/' s).toList.getLast? ≠ some '/' := by
  intro hlast
  have hhead := List.head?_dropWhile_not (fun c => decide (c = '/')) s.toList.reverse
  simp only [Text.stripEnd, String.toList_ofList, List.getLast?_reverse] at hlast
  rw [hlast] at hhead
  exact absurd hhead (by simp)

theorem endsWith_expandUser : Text.endsWith (w.expandUser raw) "/" = true ↔
    Text.endsWith raw "/" = true ∨ w.expandUser raw = "/" := by
  have hroot : Text.endsWith "/" "/" = true := by decide
  unfold expandUser
  split
  · rename_i cs hcs
    split
    · exact ⟨.inl, fun h => h.elim id fun h => h ▸ hroot⟩
    · rename_i home _
      dsimp only
      split
      · exact ⟨fun _ => .inr rfl, fun _ => hroot⟩
      · rename_i hne
        rw [Text.endsWith_slash_iff, Text.endsWith_slash_iff, hcs, String.toList_append,
          String.toList_ofList]
        constructor
        · intro hlast
          by_cases hdrop : cs.dropWhile (· ≠ '/') = []
          · rw [hdrop, List.append_nil] at hlast
            exact absurd hlast (getLast?_stripEnd home)
          · have hcs' : cs ≠ [] := by
              rintro rfl
              exact hdrop rfl
            rw [List.getLast?_append, getLast?_dropWhile hdrop, List.getLast?_eq_some_getLast hcs',
              Option.some_or] at hlast
            rw [List.getLast?_cons_of_ne_nil hcs', List.getLast?_eq_some_getLast hcs']
            exact .inl hlast
        · rintro (hlast | hroot')
          · have hmem : '/' ∈ cs := by
              have hmem := List.mem_of_getLast? hlast
              simpa using hmem
            have hdrop : cs.dropWhile (· ≠ '/') ≠ [] := by
              intro hnil
              have hany := List.any_dropWhile (l := cs) (p := fun c => decide (c ≠ '/'))
              rw [hnil, List.any_nil] at hany
              have hall : ∀ c ∈ cs, ¬c = '/' := by simpa using hany.symm
              exact hall '/' hmem rfl
            have hcs' : cs ≠ [] := List.ne_nil_of_mem hmem
            rw [List.getLast?_cons_of_ne_nil hcs', ← getLast?_dropWhile hdrop] at hlast
            rw [List.getLast?_append, hlast, Option.some_or]
          · have hlist := congrArg String.toList hroot'
            rw [String.toList_append, String.toList_ofList] at hlist
            rw [hlist]
            decide
  · exact ⟨.inl, fun h => h.elim id fun h => h ▸ hroot⟩

end World
end DeletionGuard
