import DeletionGuard.Proofs.Path.Completion

/-!
Paths with the character that no path can hold. Where no link leads to such a path, strict
resolution meets one just if a component holds the character and all before it can be resolved.
Any other component that cannot be resolved hides what comes after it.
-/
namespace DeletionGuard

def Path.Clean (p : Path) : Prop :=
  ∀ s ∈ p.parts, Text.holds Text.nul s = false

theorem Path.holds_nul_text {p : Path} :
    Text.holds Text.nul p.text = true ↔ ∃ s ∈ p.parts, Text.holds Text.nul s = true := by
  have hnul : Text.nul ≠ '/' := by decide
  cases hroot : p.root with
  | relative =>
    unfold text
    split
    · rename_i h
      rw [h.2]
      simp [Text.holds, Text.nul]
    · simp only [Text.holds, List.contains_iff_mem, hroot, Root.text, String.toList_append,
        List.mem_append, Text.mem_glue hnul]
      simp
  | single => exact holds_text (isAbsolute_iff.mpr (.inl hroot)) hnul
  | double => exact holds_text (isAbsolute_iff.mpr (.inr hroot)) hnul

theorem Path.Clean.not_holds_text {p : Path} (h : p.Clean) :
    Text.holds Text.nul p.text = false := by
  rw [← Bool.not_eq_true, Path.holds_nul_text]
  rintro ⟨s, hs, hholds⟩
  rw [h s hs] at hholds
  exact absurd hholds nofun

theorem Text.not_holds_of_mem_cut {s piece : String} (h : Text.holds Text.nul s = false)
    (hpiece : piece ∈ cut '/' s) : Text.holds Text.nul piece = false := by
  rw [← Bool.not_eq_true] at h ⊢
  intro hnul
  apply h
  rw [← glue_cut '/' s, holds, List.contains_iff_mem, mem_glue (by decide)]
  exact ⟨piece, hpiece, by simpa [holds] using hnul⟩

namespace World
open FileTree
variable {w : World} {p here : Path} {memo : Memo} {s text : String}
  {pieces front back : List String} {ending : Ending}
  {enter : Path → String → Memo → Except Failure Progress}

def LinksClean (w : World) : Prop :=
  ∀ l target, w.tree.find? l = some (.link target) → Text.holds Text.nul target = false

theorem entryAt_eq_nul_iff :
    w.entryAt ending text = .error .nulInPath ↔ Text.holds Text.nul text = true := by
  unfold entryAt locate
  cases Text.holds Text.nul text with
  | true => simp [Except.bind]
  | false =>
    simp only [Bool.false_eq_true, if_false, iff_false]
    intro h
    generalize (if maxPath ≤ text.utf8ByteSize then _ else _ : Except Errno Location) = found at h
    cases found with
    | error x => exact absurd h nofun
    | ok l =>
      cases hfind : w.tree.find? l <;> simp [Except.bind, hfind] at h

theorem entryAt_ne_nul (h : p.Clean) : w.entryAt ending p.text ≠ .error .nulInPath := by
  rw [Ne, entryAt_eq_nul_iff, h.not_holds_text]
  exact nofun

theorem clean_child (h : here.Clean) (hs : Text.holds Text.nul s = false) :
    (here.child s).Clean := by
  intro n hn
  obtain hn | hn := List.mem_append.mp hn
  · exact h n hn
  · rwa [List.mem_singleton.mp hn]

theorem closed_clean (w : World) : Closed w true Path.Clean where
  root := nofun
  ascend p h := by
    have hparent : p.parent.Clean := fun s hs => h s (List.dropLast_subset _ hs)
    unfold Path.ascend
    split
    · exact hparent
    · split
      · exact clean_child h (by decide)
      · exact hparent
  child p s _ _ _ _ hseen := by
    obtain ⟨e, he, -⟩ | ⟨hlenient, -⟩ := hseen
    · intro n hn
      rw [← Bool.not_eq_true]
      intro hholds
      have hnul : w.lstat (p.child s).text = .error .nulInPath :=
        entryAt_eq_nul_iff.mpr (Path.holds_nul_text.mpr ⟨n, hn, hholds⟩)
      rw [hnul] at he
      exact absurd he nofun
    · exact absurd hlenient nofun

theorem isPart_of_nul (hs : Text.holds Text.nul s = true) : Path.isPart s = true ∧ s ≠ ".." := by
  refine ⟨Path.isPart_iff.mpr ⟨?_, ?_⟩, ?_⟩ <;> rintro rfl <;> exact absurd hs (by decide)

theorem scan_failed {f : Failure} (hpart : Path.isPart s = true) (hup : s ≠ "..")
    (hseen : w.lstat (here.child s).text = .error f) :
    w.scan true enter here (s :: back) memo = .error f := by
  rw [scan, hpart, Bool.not_true, if_neg Bool.false_ne_true, if_neg hup]
  simp only [hseen]
  rfl

theorem scan_barred {f : Failure} {target : String} (hpart : Path.isPart s = true) (hup : s ≠ "..")
    (hseen : w.lstat (here.child s).text = .ok (.link target))
    (hnew : memo.lookup (here.child s) = none)
    (hentered : enter here target ((here.child s, none) :: memo) = .error f) :
    w.scan true enter here (s :: back) memo = .error f := by
  rw [scan, hpart, Bool.not_true, if_neg Bool.false_ne_true, if_neg hup]
  simp only [hseen, hnew, hentered]

theorem scan_circle {target : String} (hpart : Path.isPart s = true) (hup : s ≠ "..")
    (hseen : w.lstat (here.child s).text = .ok (.link target))
    (hbegun : memo.lookup (here.child s) = some none) :
    w.scan true enter here (s :: back) memo =
      match w.stat (here.child s).text with
      | .error f => .error f
      | .ok _ => .error (.linkLoop (here.child s).text) := by
  rw [scan, hpart, Bool.not_true, if_neg Bool.false_ne_true, if_neg hup]
  cases hstat : w.stat (here.child s).text <;> simp only [hseen, hbegun, hstat, if_true]

theorem scan_nul (hs : Text.holds Text.nul s = true) :
    w.scan true enter here (s :: back) memo = .error .nulInPath := by
  obtain ⟨hpart, hup⟩ := isPart_of_nul hs
  exact scan_failed hpart hup
    (entryAt_eq_nul_iff.mpr (Path.holds_nul_text.mpr ⟨s, by simp, hs⟩))

theorem exists_step (here : Path) (s : String) (memo : Memo)
    (henter : ∀ here target memo q, enter here target memo ≠ .ok (.stuck q)) :
    ∃ r : Except Failure (Path × Memo),
      (∀ rest, w.scan true enter here (s :: rest) memo =
        r.bind fun x => w.scan true enter x.1 rest x.2) ∧
      (r = .error .nulInPath → w.lstat (here.child s).text = .error .nulInPath ∨
        w.stat (here.child s).text = .error .nulInPath ∨
        ∃ target, w.lstat (here.child s).text = .ok (.link target) ∧
          enter here target ((here.child s, none) :: memo) = .error .nulInPath) := by
  cases hpart : Path.isPart s with
  | false => exact ⟨.ok (here, memo), fun rest => scan_skip hpart, nofun⟩
  | true =>
    by_cases hup : s = ".."
    · exact ⟨.ok (here.ascend, memo), fun rest => hup ▸ scan_up, nofun⟩
    · cases hseen : w.lstat (here.child s).text with
      | error f =>
        exact ⟨.error f, fun rest => scan_failed hpart hup hseen,
          fun h => .inl (congrArg Except.error (Except.error.inj h))⟩
      | ok e =>
        cases e with
        | file | dir | fifo =>
          exact ⟨.ok (here.child s, memo), fun rest => scan_plain hpart hup hseen rfl, nofun⟩
        | link target =>
          cases hknown : memo.lookup (here.child s) with
          | none =>
            cases hentered : enter here target ((here.child s, none) :: memo) with
            | error f =>
              exact ⟨.error f, fun rest => scan_barred hpart hup hseen hknown hentered,
                fun h => .inr (.inr ⟨target, rfl,
                  hentered.trans (congrArg Except.error (Except.error.inj h))⟩)⟩
            | ok r =>
              cases r with
              | reached known memo' =>
                exact ⟨.ok (known, (here.child s, some known) :: memo'),
                  fun rest => scan_entered hpart hup hseen hknown hentered, nofun⟩
              | stuck q => exact absurd hentered (henter _ _ _ _)
          | some known =>
            cases known with
            | some known =>
              exact ⟨.ok (known, memo), fun rest => scan_known hpart hup hseen hknown, nofun⟩
            | none =>
              cases hstat : w.stat (here.child s).text with
              | error f =>
                refine ⟨.error f, fun rest => ?_,
                  fun h => .inr (.inl (congrArg Except.error (Except.error.inj h)))⟩
                rw [scan_circle hpart hup hseen hknown, hstat]
                rfl
              | ok e =>
                refine ⟨.error (.linkLoop (here.child s).text), fun rest => ?_, nofun⟩
                rw [scan_circle hpart hup hseen hknown, hstat]
                rfl

theorem scan_append (henter : ∀ here target memo q, enter here target memo ≠ .ok (.stuck q)) :
    w.scan true enter here (front ++ back) memo =
      match w.scan true enter here front memo with
      | .ok (.reached q memo') => w.scan true enter q back memo'
      | r => r := by
  induction front generalizing here memo with
  | nil => rfl
  | cons s front ih =>
    obtain ⟨r, hstep, -⟩ := exists_step here s memo henter
    rw [List.cons_append, hstep, hstep]
    cases r with
    | error f => rfl
    | ok x => exact ih

theorem scan_ne_nul (hlinks : w.LinksClean)
    (henter : ∀ here target memo q, enter here target memo ≠ .ok (.stuck q))
    (hclean : ∀ here target memo, here.Clean → Memo.Holds Path.Clean memo →
      Text.holds Text.nul target = false → enter here target memo ≠ .error .nulInPath)
    (hclosed : ∀ here target memo q memo', here.Clean → Memo.Holds Path.Clean memo →
      enter here target memo = .ok (.reached q memo') → q.Clean ∧ Memo.Holds Path.Clean memo')
    (hpieces : ∀ s ∈ pieces, '/' ∉ s.toList ∧ Text.holds Text.nul s = false) (hhere : here.Clean)
    (hmemo : Memo.Holds Path.Clean memo) :
    w.scan true enter here pieces memo ≠ .error .nulInPath := by
  induction pieces generalizing here memo with
  | nil => exact nofun
  | cons s rest ih =>
    obtain ⟨hslash, hs⟩ := hpieces s List.mem_cons_self
    have hchild : (here.child s).Clean := clean_child hhere hs
    obtain ⟨r, hstep, hnul⟩ := exists_step here s memo henter
    rw [hstep]
    cases r with
    | error f =>
      intro h
      obtain rfl := Except.error.inj h
      obtain hnul | hnul | ⟨target, hseen, hnul⟩ := hnul rfl
      · exact entryAt_ne_nul hchild hnul
      · exact entryAt_ne_nul hchild hnul
      · obtain ⟨l, -, hfind⟩ := entryAt_eq_ok.mp hseen
        exact hclean _ _ _ hhere (hmemo.cons_none _) (hlinks l target hfind) hnul
    | ok x =>
      have hone : w.scan true enter here [s] memo = .ok (.reached x.1 x.2) := hstep []
      obtain ⟨hx, hmemo'⟩ := scan_closed (closed_clean w) hclosed
        (fun n hn => (List.mem_singleton.mp hn) ▸ hslash) hhere hmemo hone
      exact ih (fun n hn => hpieces n (List.mem_cons_of_mem _ hn)) hx hmemo'

theorem resolveText_ne_stuck {depth : Nat} {q : Path} :
    w.resolveText true depth here text memo ≠ .ok (.stuck q) := by
  intro h
  obtain ⟨q', memo', hr⟩ := resolveText_strict h
  exact absurd hr nofun

theorem resolveText_ne_nul {depth : Nat} (hlinks : w.LinksClean)
    (htext : Text.holds Text.nul text = false) (hhere : here.Clean)
    (hmemo : Memo.Holds Path.Clean memo) :
    w.resolveText true depth here text memo ≠ .error .nulInPath := by
  induction depth generalizing here text memo with
  | zero => simp [resolveText]
  | succ depth ih =>
    rw [resolveText]
    refine scan_ne_nul hlinks (fun _ _ _ _ => resolveText_ne_stuck)
      (fun here target memo hhere hmemo htarget => ih htarget hhere hmemo)
      (fun here target memo q memo' hhere hmemo h =>
        resolveText_closed (closed_clean w) (.inl hhere) hmemo h)
      (fun s hs => ⟨Text.not_mem_of_mem_cut hs, Text.not_holds_of_mem_cut htext hs⟩) ?_ hmemo
    · split
      · exact (closed_clean w).root
      · exact hhere

theorem scan_text {strict : Bool} (hp : p.Proper) :
    w.scan strict enter here (Text.cut '/' p.text) memo =
      w.scan strict enter here p.parts memo := by
  have hglue : w.scan strict enter here (Text.cut '/' (Text.glue '/' p.parts)) memo =
      w.scan strict enter here p.parts memo := by
    by_cases hnil : p.parts = []
    · rw [hnil]
      exact scan_skip (by decide)
    · rw [Text.cut_glue hnil fun s hs => (hp s hs).2]
  have hslash (text : String) : w.scan strict enter here (Text.cut '/' ("/" ++ text)) memo =
      w.scan strict enter here (Text.cut '/' text) memo := by
    have hcut : Text.cut '/' ("/" ++ text) = "" :: Text.cut '/' text :=
      Text.cut_append_cons (s := "") (by simp) text
    rw [hcut]
    exact scan_skip (by decide)
  cases hroot : p.root with
  | relative =>
    unfold Path.text
    split
    · rename_i h
      rw [h.2, show Text.cut '/' "." = ["."] by decide]
      exact scan_skip (by decide)
    · rw [hroot, Root.text, String.empty_append, hglue]
  | single =>
    rw [Path.text_of_isAbsolute (Path.isAbsolute_iff.mpr (.inl hroot)), hroot, Root.text, hslash,
      hglue]
  | double =>
    rw [Path.text_of_isAbsolute (Path.isAbsolute_iff.mpr (.inr hroot)), hroot, Root.text,
      show "//" = "/" ++ "/" from rfl, String.append_assoc, hslash, hslash, hglue]

theorem resolveText_text {strict : Bool} {depth : Nat} (hp : p.Proper) :
    w.resolveText strict (depth + 1) ⟨.relative, []⟩ p.text memo =
      w.scan strict (w.resolveText strict depth)
        (if p.isAbsolute then ⟨.single, []⟩ else ⟨.relative, []⟩) p.parts memo := by
  rw [resolveText, scan_text hp]
  simp only [Path.startsWith_text_iff hp]

def BreaksOff (w : World) (p : Path) : Prop :=
  ∃ front s back r, p.parts = front ++ s :: back ∧ Text.holds Text.nul s = true ∧
    w.resolveText true w.maxDepth ⟨.relative, []⟩ (Path.mk p.root front).text [] = .ok r

theorem exists_first_nul {parts : List String} (h : ¬∀ s ∈ parts, Text.holds Text.nul s = false) :
    ∃ front s back, parts = front ++ s :: back ∧ Text.holds Text.nul s = true ∧
      ∀ n ∈ front, Text.holds Text.nul n = false := by
  induction parts with
  | nil => exact absurd (fun s hs => absurd hs List.not_mem_nil) h
  | cons s rest ih =>
    cases hs : Text.holds Text.nul s with
    | true => exact ⟨[], s, rest, rfl, hs, nofun⟩
    | false =>
      have hrest : ¬∀ n ∈ rest, Text.holds Text.nul n = false :=
        fun hclean => h (List.forall_mem_cons.mpr ⟨hs, hclean⟩)
      obtain ⟨front, n, back, rfl, hn, hfront⟩ := ih hrest
      exact ⟨s :: front, n, back, rfl, hn, List.forall_mem_cons.mpr ⟨hs, hfront⟩⟩

theorem resolveText_eq_nul_iff (hp : p.Proper) (hlinks : w.LinksClean) :
    w.resolveText true w.maxDepth ⟨.relative, []⟩ p.text [] = .error .nulInPath ↔
      w.BreaksOff p := by
  have hclean {q : Path} (h : q.Clean) :
      w.resolveText true w.maxDepth ⟨.relative, []⟩ q.text [] ≠ .error .nulInPath :=
    resolveText_ne_nul hlinks h.not_holds_text nofun (.nil _)
  constructor
  · intro h
    obtain ⟨front, s, back, hparts, hs, hfront⟩ := exists_first_nul fun hp => hclean hp h
    have hbefore : (Path.mk p.root front).Proper :=
      fun n hn => hp n (hparts ▸ List.mem_append_left _ hn)
    cases hr : w.resolveText true w.maxDepth ⟨.relative, []⟩ (Path.mk p.root front).text [] with
    | ok r => exact ⟨front, s, back, r, hparts, hs, hr⟩
    | error f =>
      rw [maxDepth, resolveText_text hp, hparts,
        scan_append fun _ _ _ _ => resolveText_ne_stuck] at h
      have hfail := hr
      rw [maxDepth, resolveText_text hbefore] at hfail
      rw [show p.isAbsolute = (Path.mk p.root front).isAbsolute from rfl, hfail] at h
      exact absurd (hr.trans h) (hclean hfront)
  · rintro ⟨front, s, back, r, hparts, hs, hr⟩
    have hbefore : (Path.mk p.root front).Proper :=
      fun n hn => hp n (hparts ▸ List.mem_append_left _ hn)
    obtain ⟨q, memo, rfl⟩ := resolveText_strict hr
    rw [maxDepth, resolveText_text hp, hparts, scan_append fun _ _ _ _ => resolveText_ne_stuck]
    rw [maxDepth, resolveText_text hbefore] at hr
    rw [show p.isAbsolute = (Path.mk p.root front).isAbsolute from rfl, hr]
    exact scan_nul hs

theorem anchor_ne_nul : w.anchor p ≠ .error .nulInPath := by
  unfold anchor
  split
  · exact nofun
  · cases hcwd : w.getcwd with
    | ok cwd => exact nofun
    | error f =>
      unfold getcwd at hcwd
      repeat' split at hcwd
      all_goals cases hcwd <;> exact nofun

theorem circular_eq_nul_iff {f : Failure} : circular f = .nulInPath ↔ f = .nulInPath := by
  unfold circular
  split <;> simp

theorem mapError_circular_eq_nul_iff {α : Type} {x : Except Failure α} :
    x.mapError circular = .error .nulInPath ↔ x = .error .nulInPath := by
  cases x <;> simp [circular_eq_nul_iff]

/-- Strict resolution refuses a path as none at all just if it comes to the character itself. -/
theorem resolveStrict_eq_nul_iff (hp : p.Proper) (hlinks : w.LinksClean) :
    w.resolveStrict p = .error .nulInPath ↔ w.BreaksOff p := by
  rw [← resolveText_eq_nul_iff hp hlinks, resolveStrict, mapError_circular_eq_nul_iff, realPath]
  cases hr : w.resolveText true w.maxDepth ⟨.relative, []⟩ p.text [] with
  | error f => simp
  | ok r =>
    obtain ⟨q, memo, rfl⟩ := resolveText_strict hr
    simp [anchor_ne_nul]

end World
end DeletionGuard
