import DeletionGuard.Proofs.Path.Completion
import DeletionGuard.Proofs.Target.Sighting

/-!
Canonical paths of targets. The canonical path of a target that exists is the true place of what the
system finds at the argument: no link lies on it. The system finds it there by that path, too, but
for links whose canonical path is too long for a call. The path of a link is put together from that
of its directory and its name, and is not looked at again.
-/
namespace DeletionGuard
open FileTree

/-- The canonical path of a target is the true place of what the system finds at the argument. -/
structure Target.Located (t : Target) (w : World) : Prop where
  root : t.resolved.root = .single
  names : ∀ s ∈ t.resolved.parts, s ≠ "." ∧ s ≠ ".."
  above : ∀ l, l <+: t.resolved.parts → l ≠ t.resolved.parts → w.tree.isDir l = true
  found : w.locate .keep t.absolute.text = .ok t.resolved.parts
  entry : ∃ e, w.tree.find? t.resolved.parts = some e ∧ t.kind = .ofEntry e

/-- By its canonical path the system finds the very same. -/
structure Target.Canonical (t : Target) (w : World) : Prop extends t.Located w where
  again : w.locate .keep t.resolved.text = .ok t.resolved.parts

namespace World
variable {w : World} {base p q : Path} {raw : String} {t : Target} {l m : Location} {e : Entry}

theorem absolute_of_place {slashed flag : Bool} {kind : Kind}
    (h : w.place raw p slashed kind flag = .ok t) : t.absolute = p := by
  unfold place at h
  cases kind with
  | symlink =>
    simp only [bind_eq_ok] at h
    obtain ⟨parent, -, destination, -, h⟩ := h
    split at h
    · obtain ⟨isDir, -, rfl⟩ := map_eq_ok.mp h
      cases isDir <;> rfl
    · rw [← Except.ok.inj h]
  | missing | file | directory =>
    obtain ⟨resolved, -, rfl⟩ := map_eq_ok.mp h
    rfl

theorem absolute_of_resolve (h : w.resolve base raw = .ok t) :
    t.absolute = w.absolutePath base raw := by
  rw [resolve, mapError_eq_ok, bind_eq_ok] at h
  obtain ⟨⟨kind, flag⟩, -, hplace⟩ := h
  exact absolute_of_place hplace

theorem kept_fits (w : World) : Kept w true (fun l => w.tree.Solid l ∧ Fits l) where
  root := ⟨solid_nil w.tree, fits_nil⟩
  up l h := ⟨h.1.dropLast, h.2.above (List.dropLast_prefix l)⟩
  step l s h hpart hslash hup hseen := by
    have hsolid := (kept_solid w).step l s h.1 hpart hslash hup hseen
    obtain ⟨e, he, -⟩ | ⟨hlenient, -⟩ := hseen
    · obtain ⟨m, hm, -⟩ := entryAt_eq_ok.mp he
      have hproper : (Path.mk .single (l ++ [s])).Proper :=
        fun n hn => Path.isPart_of_isName (hsolid.names n hn)
      exact ⟨hsolid, fits_of_locate hproper hm⟩
    · exact absurd hlenient nofun

theorem fits_of_resolveStrict (habs : p.isAbsolute = true) (h : w.resolveStrict p = .ok q) :
    Fits q.parts := by
  obtain ⟨-, memo, hreached⟩ := reached_of_resolveStrict habs h
  exact (rooted_of_reached (kept_fits w) habs hreached).2.2

theorem located_of_found (hroot : t.resolved.root = .single) (hparts : t.resolved.parts = m)
    (hfound : w.locate .keep t.absolute.text = .ok m) (hfind : w.tree.find? m = some e)
    (hkind : t.kind = .ofEntry e) : t.Located w := by
  subst hparts
  refine ⟨hroot, fun s hs => ?_, fun l hl hne => isDir_of_below hl hne hfind, hfound, e, hfind,
    hkind⟩
  have hname := isName_of_find? hfind s hs
  exact ⟨hname.2.1, hname.2.2.1⟩

theorem nul_not_mem_name (habs : p.isAbsolute = true) (hne : p.parts ≠ [])
    (h : w.locate .keep p.text = .ok m) : Text.holds Text.nul p.name = false := by
  have htext : Text.holds Text.nul p.text = false := by
    unfold locate at h
    split at h
    · exact absurd h nofun
    · rename_i hnul
      simpa using hnul
  rw [← Bool.not_eq_true] at htext ⊢
  intro hname
  apply htext
  rw [Path.holds_text habs (by decide)]
  refine ⟨p.name, ?_, hname⟩
  rw [Path.name_eq_getLast hne]
  exact List.getLast_mem hne

theorem located_of_resolve (hproper : base.Proper) (habs : base.isAbsolute = true)
    (hlink : Text.endsWith raw "/" = true →
      ∀ target, w.lstat (w.absolutePath base raw).text ≠ .ok (.link target))
    (h : w.resolve base raw = .ok t) (hexists : t.exists? = true) :
    t.Located w ∧ w.tree.Open t.resolved.parts ∧
      (t.kind ≠ .symlink ∨ t.resolved.text.utf8ByteSize < maxPath → Fits t.resolved.parts) := by
  have hp : (w.absolutePath base raw).Proper := proper_absolutePath hproper
  have ha : (w.absolutePath base raw).isAbsolute = true := isAbsolute_absolutePath habs
  have habsolute := absolute_of_resolve h
  cases sighting_of_resolve h with
  | absent errno path hseen habsent hkind hflag =>
    rw [Target.exists?, hkind] at hexists
    exact absurd hexists (by decide)
  | entry e hseen hplain hresolved hkind hflag =>
    obtain ⟨m, hm, hfind⟩ := entryAt_eq_ok.mp hseen
    have hlead := leads_of_locate hp ha hm hfind hplain
    have hplace := resolveStrict_leads hp ha hlead hresolved
    have hfits : Fits t.resolved.parts := fits_of_resolveStrict ha hresolved
    have hfound : w.locate .keep t.absolute.text = .ok m := by
      rw [habsolute]
      exact hm
    rw [hplace] at hfits ⊢
    refine ⟨located_of_found ?_ ?_ hfound hfind hkind, hlead.open (open_nil _), fun _ => hfits⟩ <;>
      rw [hplace]
  | link target hseen parent hparent hresolved hkind hflag =>
    obtain ⟨m, hm, hfind⟩ := entryAt_eq_ok.mp hseen
    obtain ⟨k, hlead, rfl, hturn⟩ := turn_of_locate hp ha hm hfind
    have ha' : (w.absolutePath base raw).parent.isAbsolute = true :=
      (Path.isAbsolute_parent _).trans ha
    have hne : (w.absolutePath base raw).parts ≠ [] := by
      intro hnil
      have hwalk := walk_of_locate hp ha hm
      rw [hnil] at hwalk
      simp at hwalk
    have hfits : Fits parent.parts := fits_of_resolveStrict ha' hparent
    have hnul := nul_not_mem_name ha hne hm
    have hplace := resolveStrict_leads hp.parent ha' hlead hparent
    have hopen : w.tree.Open k := hlead.open (open_nil _)
    have hfound : w.locate .keep t.absolute.text = .ok (k ++ [(w.absolutePath base raw).name]) := by
      rw [habsolute]
      exact hm
    rw [hplace] at hfits hresolved
    refine ⟨located_of_found ?_ ?_ hfound hfind hkind, ?_, fun hsize => ?_⟩
    · rw [hresolved]
      rfl
    · rw [hresolved]
      rfl
    · rw [hresolved]
      exact hopen.of_link hturn
    · obtain hne | hsize := hsize
      · exact absurd hkind hne
      · rw [hresolved] at hsize ⊢
        exact fits_append_singleton hfits hnul hsize
  | through target hseen hresolved hdir hslash hkind hflag =>
    exact absurd hseen (hlink hslash target)

/-- The system finds an argument again by its canonical path unless that is the path of a link and
too long; in any case it is the true place of what the system finds. -/
theorem canonical_iff (hproper : base.Proper) (habs : base.isAbsolute = true)
    (hlink : Text.endsWith raw "/" = true →
      ∀ target, w.lstat (w.absolutePath base raw).text ≠ .ok (.link target))
    (h : w.resolve base raw = .ok t) (hexists : t.exists? = true) :
    t.Located w ∧
      (t.Canonical w ↔ (t.kind = .symlink → t.resolved.text.utf8ByteSize < maxPath)) := by
  obtain ⟨hlocated, hopen, hfits⟩ := located_of_resolve hproper habs hlink h hexists
  obtain ⟨e, hfind, hkind⟩ := hlocated.entry
  have hpath : t.resolved = ⟨.single, t.resolved.parts⟩ := by rw [← hlocated.root]
  refine ⟨hlocated, fun hcanonical _ => ?_, fun hsize => ⟨hlocated, ?_⟩⟩
  · have hagain := hcanonical.again
    rw [hpath] at hagain ⊢
    exact (fits_of_locate (proper_of_find? hfind) hagain).2
  · have hfit : Fits t.resolved.parts := by
      apply hfits
      by_cases hsym : t.kind = .symlink
      · exact .inr (hsize hsym)
      · exact .inl hsym
    rw [hpath]
    exact locate_of_open hopen hfind hfit

def besideWorld : World where
  tree := ((FileTree.empty.put ["p", "d", "e"] (.dir .nothing)).put ["p", "d", "l"]
    (.link "nowhere")).put ["p", "k"] (.link "d/e")
  cwd := "/p"
  env := []
  users := []
  ownHome := none
  git := none
  trashError := none

/-- The step up is taken from where the link leads, not from where it lies. -/
theorem canonical_beside : ∃ t, besideWorld.resolve (Path.ofString "/p") "k/../l" = .ok t ∧
    t.kind = .symlink ∧ t.resolved = Path.ofString "/p/d/l" ∧ t.Canonical besideWorld := by
  have hseen : (besideWorld.resolve (Path.ofString "/p") "k/../l").toOption.map
      (fun t => (t.kind, t.resolved)) = some (.symlink, Path.ofString "/p/d/l") := by
    decide +kernel
  obtain ⟨t, h, hfound⟩ := toOption_map_eq_some.mp hseen
  obtain ⟨hkind, hresolved⟩ := Prod.mk.inj hfound
  have hexists : t.exists? = true := by
    rw [Target.exists?, hkind]
    rfl
  have hshort : t.resolved.text.utf8ByteSize < maxPath := by
    rw [hresolved]
    decide +kernel
  have hslash : Text.endsWith "k/../l" "/" = true → ∀ target,
      besideWorld.lstat (besideWorld.absolutePath (Path.ofString "/p") "k/../l").text ≠
        .ok (.link target) := fun hslash => absurd hslash (by decide)
  have hcanonical := (canonical_iff (Path.proper_ofString "/p") (by decide) hslash h hexists).2
  exact ⟨t, h, hkind, hresolved, hcanonical.mpr fun _ => hshort⟩

namespace Deep

def longName : String :=
  String.ofList (List.replicate 254 'n')

def lastName : String :=
  "nnnnnnnnnnnnnnn"

theorem size_replicate (n : Nat) : (String.ofList (List.replicate n 'n')).utf8ByteSize = n := by
  induction n with
  | zero => rfl
  | succ n ih =>
    have hsize : 'n'.utf8Size = 1 := by decide
    rw [List.replicate_succ, String.ofList_cons, String.utf8ByteSize_append, ih,
      String.utf8ByteSize_singleton, hsize, Nat.add_comm]

theorem size_longName : longName.utf8ByteSize = 254 :=
  size_replicate 254

theorem longName_ne {s : String} (h : s.utf8ByteSize ≠ 254) : longName ≠ s := by
  rintro rfl
  exact h size_longName

theorem not_mem_longName {c : Char} (hc : c ≠ 'n') : c ∉ longName.toList := by
  have hchars : longName.toList = List.replicate 254 'n' := String.toList_ofList
  intro h
  rw [hchars, List.mem_replicate] at h
  exact hc h.2

theorem isName_longName : IsName longName :=
  ⟨longName_ne (by decide), longName_ne (by decide), longName_ne (by decide),
    not_mem_longName (by decide)⟩

def nest : Nat → FileTree
  | 0 => .empty
  | n + 1 => (nest n).graft (List.replicate (n + 1) longName) (.dir .nothing)

theorem find?_nest {i n : Nat} (h : i ≤ n) :
    (nest n).find? (List.replicate i longName) = some (.dir .nothing) := by
  induction n generalizing i with
  | zero =>
    obtain rfl : i = 0 := by omega
    rfl
  | succ n ih =>
    by_cases hi : i = n + 1
    · subst hi
      have hnames : ∀ s ∈ List.replicate (n + 1) longName, IsName s :=
        fun s hs => List.eq_of_mem_replicate hs ▸ isName_longName
      have hdir : (nest n).isDir (List.replicate (n + 1) longName).dropLast = true := by
        rw [List.dropLast_replicate]
        exact isDir_iff.mpr ⟨_, ih (Nat.le_refl n)⟩
      exact find?_graft_self (by simp) hnames hdir _
    · have hnot : ¬List.replicate (n + 1) longName <+: List.replicate i longName := by
        intro hbelow
        have hlength := hbelow.length_le
        simp only [List.length_replicate] at hlength
        omega
      rw [nest, find?_graft_of_not_below hnot]
      exact ih (by omega)

def bottom : Location :=
  List.replicate 16 longName

def last : Location :=
  bottom ++ [lastName]

def deepWorld : World where
  tree := ((nest 16).graft last (.link "x")).graft ["s"] (.link (Path.mk .single bottom).text)
  cwd := "/"
  env := []
  users := []
  ownHome := none
  git := none
  trashError := none

def byWay : Path :=
  ⟨.single, ["s", lastName]⟩

theorem find?_deep {i : Nat} (h : i ≤ 16) :
    deepWorld.tree.find? (List.replicate i longName) = some (.dir .nothing) := by
  have hlast : ¬last <+: List.replicate i longName := by
    intro hbelow
    have hlength := hbelow.length_le
    simp only [last, bottom, List.length_append, List.length_replicate,
      List.length_singleton] at hlength
    omega
  have hlink : ¬["s"] <+: List.replicate i longName := by
    intro hbelow
    have hmem := hbelow.subset (List.mem_singleton_self "s")
    exact longName_ne (by decide) (List.eq_of_mem_replicate hmem).symm
  rw [deepWorld, find?_graft_of_not_below hlink, find?_graft_of_not_below hlast]
  exact find?_nest h

theorem find?_bottom : deepWorld.tree.find? bottom = some (.dir .nothing) :=
  find?_deep (Nat.le_refl 16)

theorem find?_last : deepWorld.tree.find? last = some (.link "x") := by
  have hnames : ∀ s ∈ last, IsName s := by
    intro s hs
    obtain hs | hs := List.mem_append.mp hs
    · exact List.eq_of_mem_replicate hs ▸ isName_longName
    · rw [List.mem_singleton.mp hs]
      decide
  have hdir : (nest 16).isDir last.dropLast = true := by
    rw [last, List.dropLast_concat]
    exact isDir_iff.mpr ⟨_, find?_nest (Nat.le_refl 16)⟩
  have hlink : ¬["s"] <+: last := by
    rintro ⟨tail, htail⟩
    exact longName_ne (by decide) (List.cons.inj htail).1.symm
  rw [deepWorld, find?_graft_of_not_below hlink]
  exact find?_graft_self (by simp [last]) hnames hdir _

theorem find?_way : deepWorld.tree.find? ["s"] = some (.link (Path.mk .single bottom).text) := by
  have hname : ∀ n ∈ ["s"], IsName n := by decide
  rw [deepWorld]
  exact find?_graft_self (List.cons_ne_nil "s" []) hname (isDir_nil _) _

theorem open_deep {i : Nat} (h : i ≤ 16) : deepWorld.tree.Open (List.replicate i longName) := by
  induction i with
  | zero => exact open_nil _
  | succ i ih =>
    have hsize : longName.utf8ByteSize ≤ maxName := by
      rw [size_longName]
      decide
    rw [List.replicate_succ']
    exact (ih (by omega)).append_singleton (find?_deep (by omega)) rfl hsize

theorem open_bottom : deepWorld.tree.Open bottom :=
  open_deep (Nat.le_refl 16)

theorem open_last : deepWorld.tree.Open last :=
  open_bottom.append_singleton find?_bottom rfl (by decide)

theorem open_way : deepWorld.tree.Open ([] ++ ["s"]) :=
  (open_nil _).append_singleton (find?_deep (Nat.zero_le 16)) rfl (by decide)

theorem size_deep (n : Nat) :
    (Path.mk .single (List.replicate (n + 1) longName)).text.utf8ByteSize = 255 * (n + 1) := by
  induction n with
  | zero =>
    have htext : (Path.mk .single [longName]).text = "/" ++ longName := by
      simp [Path.text, Root.text, Text.glue]
    rw [List.replicate_one, htext, String.utf8ByteSize_append, size_longName]
    rfl
  | succ n ih =>
    rw [List.replicate_succ', Path.utf8ByteSize_text_append_singleton (by simp), ih, size_longName]
    omega

theorem size_bottom : (Path.mk .single bottom).text.utf8ByteSize = 4080 :=
  size_deep 15

theorem size_last : (Path.mk .single last).text.utf8ByteSize = maxPath := by
  have hname : lastName.utf8ByteSize = 15 := by decide
  rw [last, Path.utf8ByteSize_text_append_singleton (by simp [bottom]), size_bottom, hname]
  rfl

theorem fits_bottom : Fits bottom := by
  have hshort : (Path.mk .single bottom).text.utf8ByteSize < maxPath := by
    rw [size_bottom]
    decide
  refine ⟨?_, hshort⟩
  rw [← Bool.not_eq_true, Path.holds_text rfl (by decide)]
  rintro ⟨s, hs, hholds⟩
  rw [List.eq_of_mem_replicate hs, Text.holds, List.contains_iff_mem] at hholds
  exact not_mem_longName (by decide) hholds

theorem fits_way : Fits ["s"] := by
  unfold Fits
  decide +kernel

theorem entryAt_last (ending : Ending) : deepWorld.entryAt ending (Path.mk .single last).text =
    .error (.call .nameTooLong (Path.mk .single last).text) := by
  have hnul : Text.holds Text.nul (Path.mk .single last).text = false :=
    holds_nul_append_singleton fits_bottom.1 (by decide)
  exact entryAt_of_long (proper_of_find? find?_last) rfl hnul (Nat.le_of_eq size_last.symm)

theorem route_bottom : Route.ofString (Path.mk .single bottom).text = ⟨true, bottom, false⟩ :=
  Path.route_text (proper_of_find? find?_bottom) rfl

theorem turn_way :
    deepWorld.tree.turn [] "s" = .ok (.link ["s"] (Path.mk .single bottom).text) :=
  turn_of_open_link open_way find?_way

theorem passes_target :
    deepWorld.tree.Passes Fits (landing [] (Path.mk .single bottom).text)
      (Route.ofString (Path.mk .single bottom).text).steps 0 bottom := by
  rw [landing, route_bottom]
  exact passes_of_open open_bottom find?_bottom rfl fun m hm => fits_bottom.above hm

theorem passes_way : deepWorld.tree.Passes Fits [] ["s"] 1 bottom :=
  .link turn_way fits_way passes_target (.stay bottom)

theorem proper_byWay : byWay.Proper := by
  unfold Path.Proper byWay
  decide

theorem lstat_byWay : deepWorld.lstat byWay.text = .ok (.link "x") := by
  have hnul : Text.holds Text.nul byWay.text = false := by decide +kernel
  have hlong : ¬maxPath ≤ byWay.text.utf8ByteSize := by decide +kernel
  have hne : (Path.mk .single bottom).text ≠ "" := by
    intro hempty
    have hsize := size_bottom
    rw [hempty] at hsize
    exact absurd hsize (by decide)
  have hopen : deepWorld.tree.Open ([] ++ last) := open_last
  have hwalk : deepWorld.tree.walk .keep maxLinks [] ["s", lastName] false = .ok last := by
    rw [walk_cons, turn_way]
    simp only [List.isEmpty_cons, Bool.false_and, Bool.false_eq_true, if_false, if_neg hne,
      landing, route_bottom, if_true, Bool.or_false]
    exact walk_of_open hopen find?_last
  refine entryAt_eq_ok.mpr ⟨last, ?_, find?_last⟩
  rw [locate_text proper_byWay rfl, hnul, if_neg Bool.false_ne_true, if_neg hlong]
  exact congrArg (Except.mapError _) hwalk

theorem resolveStrict_parent : deepWorld.resolveStrict byWay.parent = .ok ⟨.single, bottom⟩ :=
  resolveStrict_passes proper_byWay.parent rfl (lt_maxDepth find?_last (by decide)) passes_way

theorem realPath_byWay : deepWorld.realPath false byWay = .ok ⟨.single, last⟩ := by
  have hcut : Text.cut '/' byWay.text = ["", "s", lastName] := by decide +kernel
  have hnames : ∀ s ∈ last, s ≠ ".." := fun s hs => (isName_of_find? find?_last s hs).2.2.1
  have hdepth : 0 < deepWorld.tree.entries.length * maxPath := by
    have hmem := mem_of_find? (by simp [last]) find?_last
    exact Nat.mul_pos (List.length_pos_of_mem hmem) (by decide)
  have hway : deepWorld.lstat ((Path.mk .single []).child "s").text =
      .ok (.link (Path.mk .single bottom).text) :=
    lstat_of_open open_way find?_way fits_way
  have hlast : deepWorld.lstat ((Path.mk .single bottom).child lastName).text =
      .error (.call .nameTooLong (Path.mk .single last).text) := entryAt_last .keep
  have hends : Ends deepWorld [((Path.mk .single []).child "s", none)]
      (deepWorld.resolveText false (deepWorld.tree.entries.length * maxPath) ⟨.single, []⟩
        (Path.mk .single bottom).text [((Path.mk .single []).child "s", none)]) bottom :=
    resolveText_passes hdepth (solid_nil _) (open_nil _) ((Memo.Faithful.nil _).cons_none _)
      (fun _ _ _ _ _ _ _ _ => Nat.zero_le _) passes_target
  obtain ⟨memo, hreached, -, -⟩ := hends
  have hscan : deepWorld.scan false
      (deepWorld.resolveText false (deepWorld.tree.entries.length * maxPath)) ⟨.single, []⟩
      (Text.cut '/' byWay.text) [] = .ok (.reached ⟨.single, last⟩
        (((Path.mk .single []).child "s", some ⟨.single, bottom⟩) :: memo)) := by
    rw [hcut, scan_skip rfl, scan_entered rfl (by decide) hway rfl hreached,
      scan_unseen (by decide) (by decide) hlast nofun, scan, Path.child, last]
  exact realPath_of_scan rfl rfl hnames hscan

end Deep

theorem not_canonical_deep : ∃ t,
    Deep.deepWorld.resolve ⟨.single, []⟩ ("s/" ++ Deep.lastName) = .ok t ∧ t.kind = .symlink ∧
      ¬t.Canonical Deep.deepWorld := by
  have habsolute : Deep.deepWorld.absolutePath ⟨.single, []⟩ ("s/" ++ Deep.lastName) =
      Deep.byWay := by decide
  have hseen := Deep.lstat_byWay
  have hparent := Deep.resolveStrict_parent
  have hlenient := resolveLenient_of_nameTooLong Deep.realPath_byWay (Deep.entryAt_last .follow)
  rw [← habsolute] at hseen hparent hlenient
  refine ⟨_, resolve_of_link hseen (by decide) hparent hlenient, rfl, fun hcanonical => ?_⟩
  have hagain : Deep.deepWorld.locate .keep (Path.mk .single Deep.last).text = .ok Deep.last :=
    hcanonical.again
  have hfits := fits_of_locate (proper_of_find? Deep.find?_last) hagain
  have hsize := hfits.2
  rw [Deep.size_last] at hsize
  exact absurd hsize (Nat.lt_irrefl maxPath)

end World
end DeletionGuard
