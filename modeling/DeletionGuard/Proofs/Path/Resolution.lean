import DeletionGuard.Path.Canonical
import DeletionGuard.Proofs.Path.Place

/-!
What resolution of a path finds. Whatever components of canonical paths keep, the resolved path has
too, unless a link leads to itself. So the strict form ends at the true place of an entry that is no
link, and the lenient form at the true place of whatever is found there.
-/
namespace DeletionGuard.World
open FileTree
variable {w : World} {strict : Bool} {P : Location → Prop} {Q : Path → Prop}
  {p q here : Path} {l m : Location} {memo memo' : Memo} {s : String}
  {pieces : List String} {e : Entry}

def Memo.Holds (Q : Path → Prop) (memo : Memo) : Prop :=
  ∀ e ∈ memo, ∀ known, e.2 = some known → Q known

theorem Memo.Holds.nil (Q : Path → Prop) : Memo.Holds Q [] :=
  nofun

theorem Memo.Holds.cons_none (h : Memo.Holds Q memo) (p : Path) :
    Memo.Holds Q ((p, none) :: memo) := by
  intro e he known hknown
  obtain rfl | he := List.mem_cons.mp he
  · exact absurd hknown nofun
  · exact h e he known hknown

theorem Memo.Holds.cons_some (h : Memo.Holds Q memo) (p : Path) (hq : Q q) :
    Memo.Holds Q ((p, some q) :: memo) := by
  intro e he known hknown
  obtain rfl | he := List.mem_cons.mp he
  · rwa [← Option.some.inj hknown]
  · exact h e he known hknown

theorem Memo.Holds.lookup (h : Memo.Holds Q memo) (hknown : memo.lookup p = some (some q)) :
    Q q := by
  obtain ⟨front, back, rfl, -⟩ := List.lookup_eq_some_iff.mp hknown
  exact h (p, some q) (by simp) q rfl

/-- Something that holds of the root is kept by each step of resolution. -/
structure Closed (w : World) (strict : Bool) (Q : Path → Prop) : Prop where
  root : Q ⟨.single, []⟩
  ascend : ∀ p, Q p → Q p.ascend
  child : ∀ p s, Q p → Path.isPart s = true → '/' ∉ s.toList → s ≠ ".." →
    (∃ e, w.lstat (p.child s).text = .ok e ∧ e.isLink = false) ∨
      strict = false ∧ (∃ f, w.lstat (p.child s).text = .error f) →
    Q (p.child s)

/-- Components that resolution appends, drops and takes over keep something true. -/
structure Kept (w : World) (strict : Bool) (P : Location → Prop) : Prop where
  root : P []
  up : ∀ l, P l → P l.dropLast
  step : ∀ l s, P l → Path.isPart s = true → '/' ∉ s.toList → s ≠ ".." →
    (∃ e, w.lstat (Path.mk .single (l ++ [s])).text = .ok e ∧ e.isLink = false) ∨
      strict = false ∧ (∃ f, w.lstat (Path.mk .single (l ++ [s])).text = .error f) →
    P (l ++ [s])

theorem Kept.closed (hkept : Kept w strict P) : Closed w strict (Rooted P) where
  root := ⟨rfl, hkept.root⟩
  ascend p h := by
    rw [Path.ascend, if_pos h.isAbsolute]
    exact ⟨h.1, hkept.up p.parts h.2⟩
  child p s h hpart hslash hup hseen := by
    obtain ⟨root, parts⟩ := p
    obtain ⟨rfl, hp⟩ := h
    exact ⟨rfl, hkept.step parts s hp hpart hslash hup hseen⟩

/-- What one piece contributes to a resolution that comes to an end. -/
inductive Piece (w : World) (strict : Bool) (enter : Path → String → Memo → Except Failure Progress)
    (here : Path) (s : String) (rest : List String) (memo : Memo) (r : Progress) : Prop where
  | nothing (hpart : Path.isPart s = false) (hrest : w.scan strict enter here rest memo = .ok r)
  | up (hup : s = "..") (hrest : w.scan strict enter here.ascend rest memo = .ok r)
  | unseen (f : Failure) (hlenient : strict = false) (hpart : Path.isPart s = true) (hup : s ≠ "..")
      (hseen : w.lstat (here.child s).text = .error f)
      (hrest : w.scan strict enter (here.child s) rest memo = .ok r)
  | plain (e : Entry) (hlink : e.isLink = false) (hpart : Path.isPart s = true) (hup : s ≠ "..")
      (hseen : w.lstat (here.child s).text = .ok e)
      (hrest : w.scan strict enter (here.child s) rest memo = .ok r)
  | known (target : String) (known : Path) (hpart : Path.isPart s = true) (hup : s ≠ "..")
      (hseen : w.lstat (here.child s).text = .ok (.link target))
      (hknown : memo.lookup (here.child s) = some (some known))
      (hrest : w.scan strict enter known rest memo = .ok r)
  | entered (target : String) (known : Path) (memo' : Memo) (hpart : Path.isPart s = true)
      (hup : s ≠ "..")
      (hseen : w.lstat (here.child s).text = .ok (.link target))
      (hknown : enter here target ((here.child s, none) :: memo) = .ok (.reached known memo'))
      (hrest : w.scan strict enter known rest ((here.child s, some known) :: memo') = .ok r)
  | circle (path : Path) (hlenient : strict = false) (hstuck : r = .stuck path)
  | caught (target : String) (path path' : Path)
      (hknown : enter here target ((here.child s, none) :: memo) = .ok (.stuck path))
      (hstuck : r = .stuck path')

theorem piece_of_scan {enter : Path → String → Memo → Except Failure Progress} {rest : List String}
    {r : Progress} (h : w.scan strict enter here (s :: rest) memo = .ok r) :
    Piece w strict enter here s rest memo r := by
  rw [scan] at h
  by_cases hpart : Path.isPart s = true
  · rw [hpart, Bool.not_true, if_neg Bool.false_ne_true] at h
    by_cases hup : s = ".."
    · rw [if_pos hup] at h
      exact .up hup h
    · rw [if_neg hup] at h
      cases hseen : w.lstat (here.child s).text with
      | error f =>
        simp only [hseen] at h
        split at h
        · exact absurd h nofun
        · rename_i hgo
          have hlenient : strict = false := by
            cases strict with
            | false => rfl
            | true => exact absurd rfl hgo
          exact .unseen f hlenient hpart hup hseen h
      | ok e =>
        cases e with
        | link target =>
          simp only [hseen] at h
          split at h
          · rename_i known hknown
            exact .known target known hpart hup hseen hknown h
          · split at h
            · split at h <;> exact absurd h nofun
            · rename_i hlenient
              exact .circle _ (by simpa using hlenient) (Except.ok.inj h).symm
          · split at h
            · exact absurd h nofun
            · rename_i path hknown
              exact .caught target path _ hknown (Except.ok.inj h).symm
            · rename_i known memo' hknown
              exact .entered target known memo' hpart hup hseen hknown h
        | file data deny => exact .plain _ rfl hpart hup hseen (by simpa only [hseen] using h)
        | dir deny => exact .plain _ rfl hpart hup hseen (by simpa only [hseen] using h)
        | fifo deny => exact .plain _ rfl hpart hup hseen (by simpa only [hseen] using h)
  · have hpart' : Path.isPart s = false := by simpa using hpart
    rw [hpart', Bool.not_false, if_pos rfl] at h
    exact .nothing hpart' h

theorem scan_closed {enter : Path → String → Memo → Except Failure Progress}
    (hclosed : Closed w strict Q)
    (henter : ∀ here target memo q memo', Q here → Memo.Holds Q memo →
      enter here target memo = .ok (.reached q memo') → Q q ∧ Memo.Holds Q memo')
    (hpieces : ∀ s ∈ pieces, '/' ∉ s.toList) (hhere : Q here) (hmemo : Memo.Holds Q memo)
    (h : w.scan strict enter here pieces memo = .ok (.reached q memo')) :
    Q q ∧ Memo.Holds Q memo' := by
  induction pieces generalizing here memo with
  | nil =>
    rw [scan] at h
    obtain ⟨rfl, rfl⟩ : here = q ∧ memo = memo' := by simpa using h
    exact ⟨hhere, hmemo⟩
  | cons s rest ih =>
    have hslash : '/' ∉ s.toList := hpieces s List.mem_cons_self
    have hrest : ∀ s ∈ rest, '/' ∉ s.toList := fun s hs => hpieces s (List.mem_cons_of_mem _ hs)
    cases piece_of_scan h with
    | nothing _ h => exact ih hrest hhere hmemo h
    | up _ h => exact ih hrest (hclosed.ascend here hhere) hmemo h
    | unseen f hlenient hpart hup hseen h =>
      have hchild := hclosed.child here s hhere hpart hslash hup (.inr ⟨hlenient, f, hseen⟩)
      exact ih hrest hchild hmemo h
    | plain e hlink hpart hup hseen h =>
      have hchild := hclosed.child here s hhere hpart hslash hup (.inl ⟨e, hseen, hlink⟩)
      exact ih hrest hchild hmemo h
    | known target known _ _ _ hknown h => exact ih hrest (hmemo.lookup hknown) hmemo h
    | entered target known memo₁ _ _ _ hknown h =>
      obtain ⟨hq, hmemo₁⟩ := henter _ _ _ _ _ hhere (hmemo.cons_none (here.child s)) hknown
      exact ih hrest hq (hmemo₁.cons_some (here.child s) hq) h
    | circle path _ hstuck => exact absurd hstuck nofun
    | caught target path path' _ hstuck => exact absurd hstuck nofun

theorem resolveText_closed {depth : Nat} {text : String} (hclosed : Closed w strict Q)
    (hhere : Q here ∨ Text.startsWith text "/" = true) (hmemo : Memo.Holds Q memo)
    (h : w.resolveText strict depth here text memo = .ok (.reached q memo')) :
    Q q ∧ Memo.Holds Q memo' := by
  induction depth generalizing here text memo q memo' with
  | zero => exact absurd h nofun
  | succ depth ih =>
    -- the targets of links are resolved to a smaller depth
    rw [resolveText] at h
    refine scan_closed hclosed
      (fun here target memo q memo' hhere hmemo h => ih (.inl hhere) hmemo h)
      (fun s hs => Text.not_mem_of_mem_cut hs) ?_ hmemo h
    split
    · exact hclosed.root
    · rename_i hstart
      exact hhere.resolve_right hstart

theorem rooted_of_reached (hkept : Kept w strict P) (habs : p.isAbsolute = true)
    (h : w.resolveText strict w.maxDepth ⟨.relative, []⟩ p.text [] = .ok (.reached q memo)) :
    Rooted P q :=
  (resolveText_closed hkept.closed (.inr (Path.startsWith_text habs)) (.nil _) h).1

theorem scan_strict {enter : Path → String → Memo → Except Failure Progress} {r : Progress}
    (henter : ∀ here target memo r, enter here target memo = .ok r →
      ∃ q memo', r = .reached q memo')
    (h : w.scan true enter here pieces memo = .ok r) : ∃ q memo', r = .reached q memo' := by
  induction pieces generalizing here memo with
  | nil => exact ⟨here, memo, (Except.ok.inj h).symm⟩
  | cons s rest ih =>
    cases piece_of_scan h with
    | nothing _ h | up _ h => exact ih h
    | unseen _ _ _ _ _ h | plain _ _ _ _ _ h => exact ih h
    | known _ _ _ _ _ _ h | entered _ _ _ _ _ _ _ h => exact ih h
    | circle _ hlenient _ => exact absurd hlenient nofun
    | caught _ _ _ hknown _ =>
      obtain ⟨q, memo', hr⟩ := henter _ _ _ _ hknown
      exact absurd hr nofun

theorem resolveText_strict {depth : Nat} {text : String} {r : Progress}
    (h : w.resolveText true depth here text memo = .ok r) : ∃ q memo', r = .reached q memo' := by
  induction depth generalizing here text memo r with
  | zero => exact absurd h nofun
  | succ depth ih =>
    rw [resolveText] at h
    exact scan_strict (fun _ _ _ _ h => ih h) h

theorem anchor_of_isAbsolute (habs : p.isAbsolute = true) (h : ∀ s ∈ p.parts, s ≠ "..") :
    w.anchor p = .ok p := by
  rw [anchor, if_pos habs, Path.collapse_eq_self h]

theorem realPath_of_reached (hnames : ∀ l, P l → ∀ s ∈ l, s ≠ "..") (hq : Rooted P q)
    (h : w.resolveText strict w.maxDepth ⟨.relative, []⟩ p.text [] = .ok (.reached q memo)) :
    w.realPath strict p = .ok q := by
  rw [realPath, h]
  exact anchor_of_isAbsolute hq.isAbsolute (hnames q.parts hq.2)

theorem find?_of_lstat_child (hsolid : w.tree.Solid l) (hpart : Path.isPart s = true)
    (hslash : '/' ∉ s.toList) (hup : s ≠ "..")
    (hseen : w.lstat (Path.mk .single (l ++ [s])).text = .ok e) :
    w.tree.find? (l ++ [s]) = some e := by
  have hproper : (Path.mk .single (l ++ [s])).Proper := by
    intro n hn
    obtain hn | hn := List.mem_append.mp hn
    · exact Path.isPart_of_isName (hsolid.names n hn)
    · rw [List.mem_singleton.mp hn]
      exact ⟨hpart, hslash⟩
  exact find?_of_lstat hproper rfl
    (plain_append_singleton hsolid (Path.isPart_iff.mp hpart).2 hup) hseen

theorem kept_solid (w : World) : Kept w true w.tree.Solid where
  root := solid_nil w.tree
  up _ h := h.dropLast
  step l s hl hpart hslash hup hseen := by
    obtain ⟨e, he, hlink⟩ | ⟨hlenient, -⟩ := hseen
    · exact ⟨e, find?_of_lstat_child hl hpart hslash hup he, hlink⟩
    · exact absurd hlenient nofun

theorem reached_of_resolveStrict (habs : p.isAbsolute = true) (h : w.resolveStrict p = .ok q) :
    Rooted w.tree.Solid q ∧
      ∃ memo, w.resolveText true w.maxDepth ⟨.relative, []⟩ p.text [] = .ok (.reached q memo) := by
  have hreal : w.realPath true p = .ok q := mapError_eq_ok.mp h
  cases hr : w.resolveText true w.maxDepth ⟨.relative, []⟩ p.text [] with
  | error f =>
    rw [realPath, hr] at hreal
    exact absurd hreal nofun
  | ok r =>
    obtain ⟨q', memo, rfl⟩ := resolveText_strict hr
    have hq' := rooted_of_reached (kept_solid w) habs hr
    have hend := realPath_of_reached (fun l hl s hs => (hl.names s hs).2.2.1) hq' hr
    rw [hreal] at hend
    obtain rfl := Except.ok.inj hend
    exact ⟨hq', memo, rfl⟩

theorem closed_root (w : World) (strict : Bool) : Closed w strict fun p => p.root ≠ .double where
  root := nofun
  ascend p h := by rwa [Path.root_ascend]
  child p s h _ _ _ _ := h

theorem root_of_resolveStrict (h : w.resolveStrict p = .ok q) : q.root = .single := by
  have hreal : w.realPath true p = .ok q := mapError_eq_ok.mp h
  cases hr : w.resolveText true w.maxDepth ⟨.relative, []⟩ p.text [] with
  | error f =>
    rw [realPath, hr] at hreal
    exact absurd hreal nofun
  | ok r =>
    obtain ⟨q', memo, rfl⟩ := resolveText_strict hr
    have hstart : (Path.mk .relative []).root ≠ .double := nofun
    obtain ⟨hroot, -⟩ := resolveText_closed (closed_root w true) (.inl hstart) (.nil _) hr
    rw [realPath, hr] at hreal
    simp only [anchor] at hreal
    split at hreal
    · rename_i habs
      rw [← Except.ok.inj hreal, Path.root_collapse]
      exact (Path.isAbsolute_iff.mp habs).resolve_right hroot
    · rename_i habs
      obtain ⟨cwd, hcwd, rfl⟩ := map_eq_ok.mp hreal
      obtain ⟨l, -, hl⟩ := ofString_getcwd hcwd
      rw [Path.root_collapse, hl, Path.join, if_neg habs]

/-- The resolution of a path stops at a link that leads to itself. -/
def Circular (w : World) (p : Path) : Prop :=
  ∃ q, w.resolveText false w.maxDepth ⟨.relative, []⟩ p.text [] = .ok (.stuck q)

/-- The components of a path are names, and no link is seen on the way to its end or there. -/
structure Unlinked (w : World) (l : Location) : Prop where
  names : ∀ s ∈ l, Path.isPart s = true ∧ '/' ∉ s.toList ∧ s ≠ ".."
  unseen : ∀ front, front <+: l → front ≠ [] → ∀ target,
    w.lstat (Path.mk .single front).text ≠ .ok (.link target)

theorem kept_unlinked (w : World) : Kept w false (Unlinked w) where
  root := ⟨nofun, fun _ hfront hne => absurd (List.prefix_nil.mp hfront) hne⟩
  up l h := by
    refine ⟨fun s hs => h.names s (List.dropLast_subset l hs), fun front hfront hne => ?_⟩
    exact h.unseen front (hfront.trans (List.dropLast_prefix l)) hne
  step l s h hpart hslash hup hseen := by
    constructor
    · intro n hn
      obtain hn | hn := List.mem_append.mp hn
      · exact h.names n hn
      · rw [List.mem_singleton.mp hn]
        exact ⟨hpart, hslash, hup⟩
    · intro front hfront hne target hlink
      obtain rfl | hfront := List.prefix_concat_iff.mp hfront
      · obtain ⟨e, he, hplain⟩ | ⟨-, f, hf⟩ := hseen
        · rw [hlink] at he
          rw [← Except.ok.inj he] at hplain
          exact absurd hplain nofun
        · rw [hlink] at hf
          exact absurd hf nofun
      · exact h.unseen front hfront hne target hlink

theorem realPath_of_resolveLenient (h : w.resolveLenient p = .ok q) :
    w.realPath false p = .ok q := by
  unfold resolveLenient at h
  cases hr : w.realPath false p with
  | error f =>
    rw [hr] at h
    exact absurd h nofun
  | ok q' =>
    simp only [hr] at h
    split at h
    · exact absurd h nofun
    · exact absurd h nofun
    · exact congrArg Except.ok (Except.ok.inj h)

theorem unlinked_of_resolveLenient (habs : p.isAbsolute = true) (h : w.resolveLenient p = .ok q)
    (hcircle : ¬w.Circular p) : Rooted (Unlinked w) q := by
  have hreal := realPath_of_resolveLenient h
  cases hr : w.resolveText false w.maxDepth ⟨.relative, []⟩ p.text [] with
  | error f =>
    rw [realPath, hr] at hreal
    exact absurd hreal nofun
  | ok r =>
    cases r with
    | stuck q' => exact absurd ⟨q', hr⟩ hcircle
    | reached q' memo =>
      have hq' := rooted_of_reached (kept_unlinked w) habs hr
      have hend := realPath_of_reached (fun l hl s hs => (hl.names s hs).2.2) hq' hr
      rw [hreal] at hend
      rwa [Except.ok.inj hend]

theorem Unlinked.proper (h : Unlinked w l) (root : Root) : (Path.mk root l).Proper :=
  fun s hs => ⟨(h.names s hs).1, (h.names s hs).2.1⟩

theorem locate_above {front : List String} {ending : Ending} (h : Unlinked w l)
    (hl : w.locate .follow (Path.mk .single l).text = .ok m) (hfront : front <+: l) :
    w.locate ending (Path.mk .single front).text =
      (w.tree.walk ending maxLinks [] front front.isEmpty).mapError
        (.call · (Path.mk .single front).text) := by
  have hproper : (Path.mk .single front).Proper :=
    fun s hs => h.proper .single s (hfront.subset hs)
  exact locate_of_fits hproper ((fits_of_locate (h.proper .single) hl).above hfront)

theorem Unlinked.solid (h : Unlinked w l) (hstat : w.stat (Path.mk .single l).text = .ok e) :
    w.tree.Solid l := by
  obtain ⟨m, hm, -⟩ := entryAt_eq_ok.mp hstat
  have hwalk := walk_of_locate (h.proper .single) rfl hm
  have hfront (front back : List String) (hl : front ++ back = l) (hsolid : w.tree.Solid front) :
      w.tree.Solid l := by
    induction back generalizing front with
    | nil =>
      rw [List.append_nil] at hl
      exact hl ▸ hsolid
    | cons s back ih =>
      rw [List.append_cons] at hl
      refine ih (front ++ [s]) hl ?_
      have hbelow : front ++ [s] <+: l := ⟨back, hl⟩
      have hkeep : ∃ k, w.tree.walk .keep maxLinks [] (front ++ [s]) false = .ok k := by
        have hfollow : Ending.follow ≠ .create := nofun
        rw [← hl] at hwalk
        exact walk_keep_of_append hfollow hwalk
      obtain ⟨k, hk⟩ := hkeep
      obtain ⟨k', hlead, harrive⟩ := arrives_of_walk (by simp) hk
      rw [List.dropLast_concat] at hlead
      rw [List.getLast_concat] at harrive
      have hplace : w.tree.Solid ([] ++ front) := hsolid
      obtain rfl : k' = front := hlead.eq_place (PartOf.refl _) hplace
      have hname := h.names s (hbelow.subset (by simp))
      obtain ⟨rfl, -⟩ := harrive.cases_name (Path.isPart_iff.mp hname.1).2 hname.2.2
      cases harrive with
      | onto hturn => exact solid_of_turn hsolid hturn
      | link target hturn =>
        -- a link on the way would have been seen there
        obtain ⟨-, -, -, hlink⟩ := turn_link hturn
        refine absurd ?_ (h.unseen _ hbelow (by simp) target)
        refine entryAt_eq_ok.mpr ⟨k' ++ [s], ?_, hlink⟩
        rw [locate_above h hm hbelow, show (k' ++ [s]).isEmpty = false by simp, hk]
        rfl
  exact hfront [] l rfl (solid_nil _)

end DeletionGuard.World
