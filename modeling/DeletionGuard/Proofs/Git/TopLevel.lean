import DeletionGuard.Batch
import DeletionGuard.Proofs.Path.Clean

/-!
The boundary of deletion as git names it. The answer of git is a path and a line end, but white
space of every kind is taken off both its ends; so a directory whose name ends in white space is
found again only where the text that is left leads there, too.
-/
namespace DeletionGuard

namespace Text
variable {s : String} {c : Char}

def EndsBlank (s : String) : Prop :=
  ∃ c, s.toList.getLast? = some c ∧ isBlank c = true

theorem strip_of_head (hhead : s.toList.head? = some c) (hc : isBlank c = false) :
    strip s = String.ofList (s.toList.reverse.dropWhile isBlank).reverse := by
  obtain ⟨cs, hcs⟩ := List.head?_eq_some_iff.mp hhead
  rw [strip, hcs, List.dropWhile_cons_of_neg (by simp [hc])]

theorem head?_strip (hhead : s.toList.head? = some c) (hc : isBlank c = false) :
    (strip s).toList.head? = some c := by
  obtain ⟨cs, hcs⟩ := List.head?_eq_some_iff.mp hhead
  have hkeep : [c].dropWhile isBlank = [c] := List.dropWhile_cons_of_neg (by simp [hc])
  rw [strip_of_head hhead hc, hcs, List.reverse_cons, List.dropWhile_append, hkeep,
    String.toList_ofList]
  split <;> simp

theorem strip_append_newline (hhead : s.toList.head? = some c) (hc : isBlank c = false) :
    strip (s ++ "\n") = strip s := by
  have hhead' : (s ++ "\n").toList.head? = some c := by
    rw [String.toList_append, List.head?_append, hhead, Option.some_or]
  have hnewline : "\n".toList.reverse = ['\n'] := rfl
  have hblank : isBlank '\n' = true := by decide
  rw [strip_of_head hhead' hc, strip_of_head hhead hc, String.toList_append, List.reverse_append,
    hnewline, List.singleton_append, List.dropWhile_cons_of_pos hblank]

theorem strip_eq_self (hhead : s.toList.head? = some c) (hc : isBlank c = false)
    (hend : ¬EndsBlank s) : strip s = s := by
  rw [strip_of_head hhead hc]
  apply String.toList_injective
  have hkeep : s.toList.reverse.dropWhile isBlank = s.toList.reverse := by
    cases hlast : s.toList.reverse with
    | nil => rfl
    | cons d cs =>
      have hd : s.toList.getLast? = some d := by
        rw [← List.head?_reverse, hlast, List.head?_cons]
      rw [List.dropWhile_cons_of_neg fun hblank => hend ⟨d, hd, hblank⟩]
  rw [String.toList_ofList, hkeep, List.reverse_reverse]

end Text

theorem Path.clean_of_text {p : Path} (h : Text.holds Text.nul p.text = false) : p.Clean := by
  intro s hs
  cases hnul : Text.holds Text.nul s with
  | false => rfl
  | true =>
    rw [Path.holds_nul_text.mpr ⟨s, hs, hnul⟩] at h
    exact absurd h nofun

namespace FileTree
variable {t : FileTree} {here steps : Location} {ending : Ending} {n : Nat} {slashed : Bool}

theorem walk_along_dirs (h : t.isDir (here ++ steps) = true) :
    t.walk ending n here steps slashed = .ok (here ++ steps) ∨
      t.walk ending n here steps slashed = .error .noAccess ∨
      t.walk ending n here steps slashed = .error .nameTooLong := by
  induction steps generalizing here with
  | nil =>
    rw [List.append_nil] at h
    exact .inl (by simp [h])
  | cons s rest ih =>
    have hhere : t.isDir here = true := isDir_above (List.prefix_append here _) h
    rw [List.append_cons] at h ⊢
    have hnext : t.isDir (here ++ [s]) = true := isDir_above (List.prefix_append _ rest) h
    obtain ⟨deny, hfind⟩ := isDir_iff.mp hnext
    have hname : IsName s := isName_of_find? hfind s (by simp)
    rw [walk_cons]
    cases hturn : t.turn here s with
    | error x =>
      obtain rfl | rfl := turn_error hhere hturn
      · exact .inr (.inl rfl)
      · exact .inr (.inr rfl)
    | ok x =>
      cases x with
      | onto l =>
        obtain ⟨hdot, -⟩ | ⟨hup, -⟩ | ⟨-, -, rfl, -⟩ := turn_onto hturn
        · exact absurd hdot hname.2.1
        · exact absurd hup hname.2.2.1
        · exact ih h
      | free l =>
        obtain ⟨rfl, hnone⟩ := turn_free hturn
        rw [hfind] at hnone
        exact absurd hnone nofun
      | link l target =>
        obtain ⟨-, -, rfl, hlink⟩ := turn_link hturn
        rw [hfind] at hlink
        exact absurd hlink nofun

end FileTree

namespace World
open FileTree
variable {w : World} {l front back : Location} {p q start : Path} {memo : Memo}
  {enter : Path → String → Memo → Except Failure Progress}

theorem proper_of_dir (hdir : w.tree.isDir l = true) : (Path.mk .single l).Proper := by
  obtain ⟨deny, hfind⟩ := isDir_iff.mp hdir
  exact proper_of_find? hfind

theorem scan_along_dirs (hdir : w.tree.isDir (front ++ back) = true)
    (hclean : Path.Clean ⟨.single, front ++ back⟩) :
    w.scan false enter ⟨.single, front⟩ back memo =
      .ok (.reached ⟨.single, front ++ back⟩ memo) := by
  induction back generalizing front with
  | nil => rw [scan, List.append_nil]
  | cons s rest ih =>
    rw [List.append_cons] at hdir hclean ⊢
    obtain ⟨deny, hfind⟩ := isDir_iff.mp (isDir_above (List.prefix_append _ rest) hdir)
    have hname : IsName s := isName_of_find? hfind s (by simp)
    have hpart := (Path.isPart_of_isName hname).1
    have hfront : Path.Clean ⟨.single, front ++ [s]⟩ :=
      fun n hn => hclean n (List.mem_append_left rest hn)
    cases hseen : w.lstat ((Path.mk .single front).child s).text with
    | ok e =>
      have hfound : w.tree.find? (front ++ [s]) = some e :=
        find?_of_lstat (proper_of_find? hfind) rfl (plain_of_find? hfind) hseen
      rw [hfind] at hfound
      obtain rfl := Option.some.inj hfound
      rw [scan_plain hpart hname.2.2.1 hseen rfl]
      exact ih hdir hclean
    | error f =>
      have hnul : f ≠ .nulInPath := fun h => entryAt_ne_nul hfront (h ▸ hseen)
      rw [scan_unseen hpart hname.2.2.1 hseen hnul]
      exact ih hdir hclean

theorem stat_dir_error {x : Errno} {path : String} (hdir : w.tree.isDir l = true)
    (h : w.stat (Path.mk .single l).text = .error (.call x path)) : x ≠ .tooManyLinks := by
  obtain h | ⟨m, -, -, h⟩ := entryAt_eq_error h
  · rw [locate_text (proper_of_dir hdir) rfl] at h
    split at h
    · exact absurd h nofun
    · split at h
      · cases h
        exact nofun
      · have hplace : w.tree.isDir ([] ++ l) = true := hdir
        obtain hwalk | hwalk | hwalk := walk_along_dirs hplace
        all_goals rw [hwalk] at h
        · exact absurd h nofun
        · cases h
          exact nofun
        · cases h
          exact nofun
  · cases h
    exact nofun

theorem resolveLenient_dir (hdir : w.tree.isDir l = true) (hclean : Path.Clean ⟨.single, l⟩) :
    w.resolveLenient ⟨.single, l⟩ = .ok ⟨.single, l⟩ := by
  have hnames : ∀ s ∈ l, s ≠ ".." := by
    obtain ⟨deny, hfind⟩ := isDir_iff.mp hdir
    exact fun s hs => (isName_of_find? hfind s hs).2.2.1
  have hreal : w.realPath false ⟨.single, l⟩ = .ok ⟨.single, l⟩ := by
    have hscan : w.scan false (w.resolveText false (w.tree.entries.length * maxPath)) ⟨.single, []⟩
        (Text.cut '/' (Path.mk .single l).text) [] = .ok (.reached ⟨.single, l⟩ []) := by
      rw [scan_text (proper_of_dir hdir)]
      exact scan_along_dirs hdir hclean
    exact realPath_of_scan rfl rfl hnames hscan
  unfold resolveLenient
  rw [hreal]
  dsimp only
  split
  · rename_i path hstat
    exact absurd rfl (stat_dir_error hdir hstat)
  · rename_i hstat
    exact absurd hstat (entryAt_ne_nul hclean)
  · rfl

theorem clean_of_resolveLenient (h : w.resolveLenient p = .ok q) :
    Text.holds Text.nul q.text = false := by
  have hreal := realPath_of_resolveLenient h
  unfold resolveLenient at h
  rw [hreal] at h
  dsimp only at h
  cases hnul : Text.holds Text.nul q.text with
  | false => rfl
  | true =>
    have hstat : w.stat q.text = .error .nulInPath := entryAt_eq_nul_iff.mpr hnul
    rw [hstat] at h
    exact absurd h nofun

/-- Git is asked in a directory, and the boundary of deletion is the directory that it names. -/
structure RecoversRoot (w : World) (start : Path) (l : Location) : Prop where
  repository : w.repositoryRoot start = .ok (some ⟨.single, l⟩)
  project : w.projectRoot start = .ok ⟨.single, l⟩
  boundary : ∀ config oracle b, w.startBatch config start none oracle = .ok b →
    b.projectRoot = ⟨.single, l⟩

theorem projectRoot_of_repositoryRoot {root : Path}
    (h : w.repositoryRoot start = .ok (some root)) : w.projectRoot start = .ok root := by
  unfold projectRoot
  rw [h]

theorem batchRoot_of_startBatch {config : Config} {root : Option Path} {oracle : Option Git.Oracle}
    {b : Batch} (h : w.startBatch config start root oracle = .ok b) :
    w.batchRoot start root = .ok b.projectRoot := by
  obtain ⟨found, hroot, h⟩ := bind_eq_ok.mp h
  obtain ⟨o, -, h⟩ := bind_eq_ok.mp h
  obtain ⟨policy, -, rfl⟩ := map_eq_ok.mp h
  exact hroot

theorem recoversRoot_of_repositoryRoot (h : w.repositoryRoot start = .ok (some ⟨.single, l⟩)) :
    w.RecoversRoot start l := by
  have hproject := projectRoot_of_repositoryRoot h
  refine ⟨h, hproject, fun config oracle b hb => ?_⟩
  exact Except.ok.inj ((batchRoot_of_startBatch hb).symm.trans hproject)

theorem repositoryRoot_of_answered {out : String}
    (h : w.askGit start .topLevel = .ok (.answered out)) (hne : Text.strip out ≠ "") :
    w.repositoryRoot start = (w.resolveLenient (Path.ofString (Text.strip out))).map some := by
  unfold repositoryRoot
  rw [h]
  dsimp only
  rw [if_neg hne]

theorem head?_pathOf (l : Location) : (pathOf l).toList.head? = some '/' := by
  simp [pathOf]

theorem isBlank_slash : Text.isBlank '/' = false := by
  decide

theorem repositoryRoot_of_pathOf
    (h : w.askGit start .topLevel = .ok (.answered (pathOf l ++ "\n"))) :
    w.repositoryRoot start =
      (w.resolveLenient (Path.ofString (Text.strip (pathOf l)))).map some := by
  have hstrip : Text.strip (pathOf l ++ "\n") = Text.strip (pathOf l) :=
    Text.strip_append_newline (head?_pathOf l) isBlank_slash
  have hne : Text.strip (pathOf l) ≠ "" := by
    intro hempty
    have hhead := Text.head?_strip (head?_pathOf l) isBlank_slash
    rw [hempty] at hhead
    exact absurd hhead nofun
  rw [← hstrip] at hne
  have hread := repositoryRoot_of_answered h hne
  rwa [hstrip] at hread

/-- The directory that git names is recovered just if its path can be the text of a call and ends in
no blank, or the text without the blanks leads there. -/
theorem recoversRoot_iff (hdir : w.tree.isDir l = true)
    (hanswer : w.askGit start .topLevel = .ok (.answered (pathOf l ++ "\n"))) :
    w.RecoversRoot start l ↔ Text.holds Text.nul (pathOf l) = false ∧
      (Text.EndsBlank (pathOf l) →
        w.resolveLenient (Path.ofString (Text.strip (pathOf l))) = .ok ⟨.single, l⟩) := by
  have hread := repositoryRoot_of_pathOf hanswer
  rw [pathOf_eq_text] at hread ⊢
  constructor
  · intro h
    rw [h.repository] at hread
    obtain ⟨q, hq, hsome⟩ := map_eq_ok.mp hread.symm
    obtain rfl := Option.some.inj hsome
    exact ⟨clean_of_resolveLenient hq, fun _ => hq⟩
  · rintro ⟨hnul, hend⟩
    have hresolve : w.resolveLenient (Path.ofString (Text.strip (Path.mk .single l).text)) =
        .ok ⟨.single, l⟩ := by
      by_cases hblank : Text.EndsBlank (Path.mk .single l).text
      · exact hend hblank
      · have hhead := head?_pathOf l
        rw [pathOf_eq_text] at hhead
        rw [Text.strip_eq_self hhead isBlank_slash hblank,
          Path.ofString_text (proper_of_dir hdir) rfl]
        exact resolveLenient_dir hdir (Path.clean_of_text hnul)
    rw [hresolve] at hread
    exact recoversRoot_of_repositoryRoot hread

def repositoryWorld (name : String) : World where
  tree := FileTree.empty.put ["p", name] (.dir .nothing)
  cwd := "/p/" ++ name
  env := []
  users := []
  ownHome := none
  git := some ⟨⟨0, pathOf ["p", name] ++ "\n", ""⟩, .noRepository, .noRepository⟩
  trashError := none

theorem recoversRoot_blanks_inside :
    (repositoryWorld " a\n b").RecoversRoot ⟨.single, ["p", " a\n b"]⟩ ["p", " a\n b"] := by
  have hanswer : (repositoryWorld " a\n b").askGit ⟨.single, ["p", " a\n b"]⟩ .topLevel =
      .ok (.answered (pathOf ["p", " a\n b"] ++ "\n")) := toOption_eq_some.mp (by decide +kernel)
  refine (recoversRoot_iff (by decide +kernel) hanswer).mpr ⟨by decide +kernel, ?_⟩
  rintro ⟨c, hlast, hblank⟩
  have hc : (pathOf ["p", " a\n b"]).toList.getLast? = some 'b' := by decide +kernel
  rw [hc] at hlast
  cases hlast
  exact absurd hblank (by decide)

theorem not_recoversRoot_blank_end : (repositoryWorld "a ").tree.isDir ["p", "a "] = true ∧
    (repositoryWorld "a ").askGit ⟨.single, ["p", "a "]⟩ .topLevel =
      .ok (.answered (pathOf ["p", "a "] ++ "\n")) ∧
    (repositoryWorld "a ").projectRoot ⟨.single, ["p", "a "]⟩ = .ok ⟨.single, ["p", "a"]⟩ ∧
    ¬(repositoryWorld "a ").RecoversRoot ⟨.single, ["p", "a "]⟩ ["p", "a "] := by
  have hproject : (repositoryWorld "a ").projectRoot ⟨.single, ["p", "a "]⟩ =
      .ok ⟨.single, ["p", "a"]⟩ := toOption_eq_some.mp (by decide +kernel)
  refine ⟨by decide +kernel, toOption_eq_some.mp (by decide +kernel), hproject, fun h => ?_⟩
  have hwrong := Except.ok.inj (hproject.symm.trans h.project)
  exact absurd hwrong (by decide)

end World
end DeletionGuard
