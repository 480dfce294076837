import DeletionGuard.Proofs.FileTree.Way
import DeletionGuard.Proofs.Path.Agreement

/-!
Resolution comes to an end where the system does. As long as a call takes the canonical path of
every location on the way, both forms of resolution end at the place to which the components lead:
no link is met while it is being resolved, since the way through its target is longer than what is
left of it.
-/
namespace DeletionGuard.World
open FileTree
variable {w : World} {strict : Bool} {p here known : Path} {l m k : Location} {memo memo' : Memo}
  {s text : String} {pieces rest : List String} {e : Entry} {n a : Nat}
  {enter : Path → String → Memo → Except Failure Progress}

theorem proper_of_find? (hfind : w.tree.find? l = some e) : (Path.mk .single l).Proper :=
  fun s hs => Path.isPart_of_isName (isName_of_find? hfind s hs)

theorem locate_of_open (hopen : w.tree.Open l) (hfind : w.tree.find? l = some e) (hfits : Fits l) :
    w.locate .keep (Path.mk .single l).text = .ok l := by
  rw [locate_of_fits (proper_of_find? hfind) hfits]
  by_cases hnil : l = []
  · simp [hnil]
  · have hwalk : w.tree.walk .keep maxLinks [] l false = .ok l := walk_of_open hopen hfind
    rw [List.isEmpty_eq_false_iff.mpr hnil, hwalk]
    rfl

theorem lstat_of_open (hopen : w.tree.Open l) (hfind : w.tree.find? l = some e) (hfits : Fits l) :
    w.lstat (Path.mk .single l).text = .ok e :=
  entryAt_eq_ok.mpr ⟨l, locate_of_open hopen hfind hfits, hfind⟩

theorem scan_skip (hpart : Path.isPart s = false) :
    w.scan strict enter here (s :: rest) memo = w.scan strict enter here rest memo := by
  rw [scan, hpart, Bool.not_false, if_pos rfl]

theorem scan_up :
    w.scan strict enter here (".." :: rest) memo = w.scan strict enter here.ascend rest memo := by
  rw [scan, show Path.isPart ".." = true from rfl, Bool.not_true, if_neg Bool.false_ne_true,
    if_pos rfl]

theorem scan_plain (hpart : Path.isPart s = true) (hup : s ≠ "..")
    (hseen : w.lstat (here.child s).text = .ok e) (hplain : e.isLink = false) :
    w.scan strict enter here (s :: rest) memo = w.scan strict enter (here.child s) rest memo := by
  rw [scan, hpart, Bool.not_true, if_neg Bool.false_ne_true, if_neg hup]
  cases e with
  | link target => cases hplain
  | file | dir | fifo => simp only [hseen]

theorem scan_known {target : String} (hpart : Path.isPart s = true) (hup : s ≠ "..")
    (hseen : w.lstat (here.child s).text = .ok (.link target))
    (hknown : memo.lookup (here.child s) = some (some known)) :
    w.scan strict enter here (s :: rest) memo = w.scan strict enter known rest memo := by
  rw [scan, hpart, Bool.not_true, if_neg Bool.false_ne_true, if_neg hup]
  simp only [hseen, hknown]

theorem scan_entered {target : String} (hpart : Path.isPart s = true) (hup : s ≠ "..")
    (hseen : w.lstat (here.child s).text = .ok (.link target))
    (hnew : memo.lookup (here.child s) = none)
    (hreached : enter here target ((here.child s, none) :: memo) = .ok (.reached known memo')) :
    w.scan strict enter here (s :: rest) memo =
      w.scan strict enter known rest ((here.child s, some known) :: memo') := by
  rw [scan, hpart, Bool.not_true, if_neg Bool.false_ne_true, if_neg hup]
  simp only [hseen, hnew, hreached]

theorem scan_unseen {f : Failure} (hpart : Path.isPart s = true) (hup : s ≠ "..")
    (hseen : w.lstat (here.child s).text = .error f) (hf : f ≠ .nulInPath) :
    w.scan false enter here (s :: rest) memo = w.scan false enter (here.child s) rest memo := by
  rw [scan, hpart, Bool.not_true, if_neg Bool.false_ne_true, if_neg hup]
  simp [hseen, hf]

/-- The way through the target of a link that is being resolved is not shorter than a number. -/
def Memo.Pending (t : FileTree) (memo : Memo) (n : Nat) : Prop :=
  ∀ here s target a k, memo.lookup (Path.mk .single (here ++ [s])) = some none →
    t.turn here s = .ok (.link (here ++ [s]) target) →
    t.Passes Fits (landing here target) (Route.ofString target).steps a k → n ≤ a

/-- Every link that one memo holds unfinished another holds unfinished. -/
def Memo.Settles (memo' memo : Memo) : Prop :=
  ∀ p, memo'.lookup p = some none → memo.lookup p = some none

theorem Memo.Pending.nil (t : FileTree) (n : Nat) : Memo.Pending t [] n := by
  intro here s target a k hlookup
  exact absurd hlookup nofun

theorem Memo.Pending.of_settles {t : FileTree} (h : Memo.Pending t memo n)
    (hsettles : memo'.Settles memo) (hle : a ≤ n) : Memo.Pending t memo' a :=
  fun here s target b k hlookup hturn htarget =>
    Nat.le_trans hle (h here s target b k (hsettles _ hlookup) hturn htarget)

theorem Memo.Pending.cons_none (h : Memo.Pending w.tree memo n) {target : String} (hle : a ≤ n)
    (hturn : w.tree.turn l s = .ok (.link (l ++ [s]) target))
    (htarget : w.tree.Passes Fits (landing l target) (Route.ofString target).steps a k) :
    Memo.Pending w.tree ((Path.mk .single (l ++ [s]), none) :: memo) a := by
  intro here s' target' b m hlookup hturn' htarget'
  rw [List.lookup_cons] at hlookup
  split at hlookup
  · rename_i heq
    have hpath : here ++ [s'] = l ++ [s] := (Path.mk.inj (beq_iff_eq.mp heq)).2
    obtain ⟨rfl, rfl⟩ := List.append_singleton_inj.mp hpath
    rw [hturn] at hturn'
    cases hturn'
    exact Nat.le_of_eq (htarget.unique htarget').1
  · exact Nat.le_trans hle (h here s' target' b m hlookup hturn' htarget')

theorem Memo.settles_of_finished (hsettles : memo'.Settles ((p, none) :: memo)) (known : Path) :
    Memo.Settles ((p, some known) :: memo') memo := by
  intro q hlookup
  rw [List.lookup_cons] at hlookup
  split at hlookup
  · exact absurd hlookup nofun
  · rename_i hne
    have hq := hsettles q hlookup
    rwa [List.lookup_cons, hne] at hq

/-- Resolution ends at a location; it has finished every link that it began. -/
def Ends (w : World) (memo : Memo) (r : Except Failure Progress) (l : Location) : Prop :=
  ∃ memo', r = .ok (.reached ⟨.single, l⟩ memo') ∧ Memo.Faithful w.tree w.IsPlace memo' ∧
    memo'.Settles memo

theorem Ends.trans {r : Except Failure Progress} (h : Ends w memo' r l)
    (hsettles : memo'.Settles memo) : Ends w memo r l := by
  obtain ⟨memo₁, hr, hfaithful, hsettles'⟩ := h
  exact ⟨memo₁, hr, hfaithful, fun p hp => hsettles p (hsettles' p hp)⟩

theorem scan_passes
    (henter : ∀ here target memo a k, a < n → w.tree.Solid here → w.tree.Open here →
      Memo.Faithful w.tree w.IsPlace memo → Memo.Pending w.tree memo a →
      w.tree.Passes Fits (landing here target) (Route.ofString target).steps a k →
      Ends w memo (enter ⟨.single, here⟩ target memo) k)
    (hpieces : ∀ s ∈ pieces, '/' ∉ s.toList) (hsolid : w.tree.Solid l) (hopen : w.tree.Open l)
    (hfaithful : Memo.Faithful w.tree w.IsPlace memo) (hpending : Memo.Pending w.tree memo a)
    (hle : a ≤ n)
    (hpass : w.tree.Passes Fits l (pieces.filter (· ≠ "")) a m) :
    Ends w memo (w.scan strict enter ⟨.single, l⟩ pieces memo) m := by
  induction pieces generalizing l memo a with
  | nil =>
    cases hpass
    exact ⟨memo, rfl, hfaithful, fun _ h => h⟩
  | cons s rest ih =>
    have hrest : ∀ s ∈ rest, '/' ∉ s.toList := fun s hs => hpieces s (List.mem_cons_of_mem _ hs)
    by_cases hs : s = ""
    · rw [hs, List.filter_cons_of_neg (by simp)] at hpass
      rw [hs, scan_skip rfl]
      exact ih hrest hsolid hopen hfaithful hpending hle hpass
    · rw [List.filter_cons_of_pos (by simpa using hs)] at hpass
      cases hpass with
      | onto hturn hfits hpass =>
        have hopen' := hopen.of_onto hturn
        have hsolid' := solid_of_turn hsolid hturn
        have hgo := ih hrest hsolid' hopen' hfaithful hpending hle hpass
        obtain ⟨rfl, rfl⟩ | ⟨rfl, rfl⟩ | ⟨hdot, hup, rfl, e, hfind, hplain⟩ := turn_onto hturn
        · rwa [scan_skip rfl]
        · rwa [scan_up]
        · have hseen : w.lstat ((Path.mk .single l).child s).text = .ok e :=
            lstat_of_open hopen' hfind hfits
          rwa [scan_plain (Path.isPart_iff.mpr ⟨hs, hdot⟩) hup hseen hplain]
      | @link _ _ k _ _ target _ b c hturn hfits htarget hpass =>
        obtain ⟨hdot, hup, rfl, hfind⟩ := turn_link hturn
        have hpart := Path.isPart_iff.mpr ⟨hs, hdot⟩
        have hseen : w.lstat ((Path.mk .single l).child s).text = .ok (.link target) :=
          lstat_of_open (hopen.of_link hturn) hfind hfits
        have hsolid' := htarget.leads.solid (solid_landing hsolid target)
        have hopen' := htarget.leads.open (open_landing hopen target)
        cases hlookup : memo.lookup ((Path.mk .single l).child s) with
        | none =>
          have hbefore : Memo.Pending w.tree _ b := hpending.cons_none (by omega) hturn htarget
          obtain ⟨memo', hreached, hfaithful', hsettles⟩ :=
            henter l target _ b k (by omega) hsolid hopen (hfaithful.cons_none _) hbefore htarget
          have hsettles' := Memo.settles_of_finished hsettles ⟨.single, k⟩
          have hafter : Memo.Pending w.tree _ c := hpending.of_settles hsettles' (by omega)
          have hc : c ≤ n := by omega
          have hfaithful₁ : Memo.Faithful w.tree w.IsPlace _ :=
            hfaithful'.cons_some (seating_isPlace w) ⟨rfl, hsolid⟩ ⟨rfl, hsolid'⟩ hturn
              htarget.leads
          have hgo := ih hrest hsolid' hopen' hfaithful₁ hafter hc hpass
          rw [scan_entered hpart hup hseen hlookup hreached]
          exact hgo.trans hsettles'
        | some known =>
          cases known with
          | none =>
            -- the way through the target of this link would be shorter than itself
            have hshort := hpending l s target b k hlookup hturn htarget
            omega
          | some known =>
            obtain ⟨rfl, -⟩ := hfaithful.lookup ⟨rfl, hsolid⟩ hturn htarget.leads hlookup
            have hafter : Memo.Pending w.tree memo c :=
              hpending.of_settles (fun _ h => h) (by omega)
            have hc : c ≤ n := by omega
            rw [scan_known hpart hup hseen hlookup]
            exact ih hrest hsolid' hopen' hfaithful hafter hc hpass

theorem resolveText_passes {depth : Nat} (hdepth : a < depth) (hsolid : w.tree.Solid l)
    (hopen : w.tree.Open l) (hfaithful : Memo.Faithful w.tree w.IsPlace memo)
    (hpending : Memo.Pending w.tree memo a)
    (hpass : w.tree.Passes Fits (landing l text) (Route.ofString text).steps a m) :
    Ends w memo (w.resolveText strict depth ⟨.single, l⟩ text memo) m := by
  induction depth generalizing l text memo a m with
  | zero => omega
  | succ depth ih =>
    have hstart : (if Text.startsWith text "/" then Path.mk .single [] else ⟨.single, l⟩) =
        ⟨.single, landing l text⟩ := by
      unfold landing Route.ofString
      split <;> rfl
    rw [resolveText, hstart]
    exact scan_passes (fun _ _ _ _ _ hlt hsolid hopen hfaithful hpending hpass =>
        ih hlt hsolid hopen hfaithful hpending hpass)
      (fun s hs => Text.not_mem_of_mem_cut hs) (solid_landing hsolid text)
      (open_landing hopen text) hfaithful hpending (by omega) hpass

/-- Both forms of resolution end where the components of an absolute path lead. -/
theorem realPath_passes (hp : p.Proper) (habs : p.isAbsolute = true) (hdepth : a < w.maxDepth)
    (hpass : w.tree.Passes Fits [] p.parts a m) : w.realPath strict p = .ok ⟨.single, m⟩ := by
  have hroute : w.tree.Passes Fits (landing [] p.text) (Route.ofString p.text).steps a m := by
    rw [landing, Path.route_text hp habs]
    exact hpass
  have hends : Ends w [] (w.resolveText strict w.maxDepth ⟨.single, []⟩ p.text []) m :=
    resolveText_passes hdepth (solid_nil _) (open_nil _) (.nil _) (.nil _ _) hroute
  obtain ⟨memo', hreached, -, -⟩ := hends
  -- the text of the path is absolute, so it does not matter where resolution starts
  have hstart : w.resolveText strict w.maxDepth ⟨.relative, []⟩ p.text [] =
      .ok (.reached ⟨.single, m⟩ memo') := by
    rw [← hreached, maxDepth, resolveText, resolveText, if_pos (Path.startsWith_text habs),
      if_pos (Path.startsWith_text habs)]
  have hnames : ∀ s ∈ m, s ≠ ".." :=
    fun s hs => ((hpass.leads.solid (solid_nil _)).names s hs).2.2.1
  rw [realPath, hstart]
  exact anchor_of_isAbsolute rfl hnames

theorem realPath_of_scan {q : Path} (habs : p.isAbsolute = true) (hq : q.isAbsolute = true)
    (hnames : ∀ s ∈ q.parts, s ≠ "..")
    (h : w.scan strict (w.resolveText strict (w.tree.entries.length * maxPath)) ⟨.single, []⟩
      (Text.cut '/' p.text) [] = .ok (.reached q memo)) : w.realPath strict p = .ok q := by
  have hreached : w.resolveText strict w.maxDepth ⟨.relative, []⟩ p.text [] =
      .ok (.reached q memo) := by
    rw [maxDepth, resolveText, if_pos (Path.startsWith_text habs)]
    exact h
  rw [realPath, hreached]
  exact anchor_of_isAbsolute hq hnames

theorem resolveLenient_of_nameTooLong {q : Path} {path : String}
    (h : w.realPath false p = .ok q) (hseen : w.stat q.text = .error (.call .nameTooLong path)) :
    w.resolveLenient p = .ok q := by
  unfold resolveLenient
  simp only [h, hseen]

theorem resolveStrict_passes (hp : p.Proper) (habs : p.isAbsolute = true) (hdepth : a < w.maxDepth)
    (hpass : w.tree.Passes Fits [] p.parts a m) : w.resolveStrict p = .ok ⟨.single, m⟩ :=
  mapError_eq_ok.mpr (realPath_passes hp habs hdepth hpass)

theorem resolveLenient_passes {q : Path} (hp : p.Proper) (habs : p.isAbsolute = true)
    (hdepth : a < w.maxDepth) (hpass : w.tree.Passes Fits [] p.parts a m)
    (h : w.resolveLenient p = .ok q) : q = ⟨.single, m⟩ := by
  unfold resolveLenient at h
  rw [realPath_passes hp habs hdepth hpass] at h
  simp only at h
  split at h
  · exact absurd h nofun
  · exact absurd h nofun
  · exact (Except.ok.inj h).symm

/-- The depth of resolution is enough for as many links as the system follows. -/
theorem lt_maxDepth {target : String} (hfind : w.tree.find? l = some (.link target))
    (hle : a ≤ maxLinks) : a < w.maxDepth := by
  have hne : l ≠ [] := ne_nil_of_find? hfind rfl
  have hpos : 0 < w.tree.entries.length := List.length_pos_of_mem (mem_of_find? hne hfind)
  have hmul : maxPath ≤ w.tree.entries.length * maxPath := Nat.le_mul_of_pos_left _ hpos
  have hlinks : maxLinks < maxPath := by decide
  unfold maxDepth
  omega

end DeletionGuard.World
