import DeletionGuard.Proofs.FileTree.Reach
import DeletionGuard.Proofs.Path.Spelling
import DeletionGuard.World

/-!
Calls on paths. A call walks along its text from the top of the tree or from the current directory.
The components of an absolute path are walked from the top, so a call on the true place of an entry
acts on that entry, also after other entries were taken away.
-/
namespace DeletionGuard.World
open FileTree
variable {w : World} {t : FileTree} {p : Path} {l start : Location} {s text : String}
  {ending : Ending} {e : Entry} {P : Location → Prop}

theorem bind_eq_ok {α β ε : Type} {x : Except ε α} {f : α → Except ε β} {b : β} :
    x.bind f = .ok b ↔ ∃ a, x = .ok a ∧ f a = .ok b := by
  cases x <;> simp [Except.bind]

theorem map_eq_ok {α β ε : Type} {x : Except ε α} {f : α → β} {b : β} :
    x.map f = .ok b ↔ ∃ a, x = .ok a ∧ f a = b := by
  cases x <;> simp [Except.map]

theorem bind_eq_error {α β ε : Type} {x : Except ε α} {f : α → Except ε β} {e : ε} :
    x.bind f = .error e ↔ x = .error e ∨ ∃ a, x = .ok a ∧ f a = .error e := by
  cases x <;> simp [Except.bind]

theorem bind_ne_error {α β ε : Type} {x : Except ε α} {f : α → Except ε β} {e : ε}
    (hx : x ≠ .error e) (hf : ∀ a, x = .ok a → f a ≠ .error e) : x.bind f ≠ .error e := by
  rw [Ne, bind_eq_error]
  rintro (h | ⟨a, ha, h⟩)
  · exact hx h
  · exact hf a ha h

theorem map_eq_error {α β ε : Type} {x : Except ε α} {f : α → β} {e : ε} :
    x.map f = .error e ↔ x = .error e := by
  cases x <;> simp [Except.map]

@[simp] theorem mapError_error {α ε ε' : Type} (f : ε → ε') (e : ε) :
    (Except.error e : Except ε α).mapError f = .error (f e) :=
  rfl

@[simp] theorem mapError_ok {α ε ε' : Type} (f : ε → ε') (a : α) :
    (Except.ok a : Except ε α).mapError f = .ok a :=
  rfl

theorem mapError_eq_ok {α ε ε' : Type} {f : ε → ε'} {x : Except ε α} {a : α} :
    x.mapError f = .ok a ↔ x = .ok a := by
  cases x <;> simp

theorem mapError_eq_error {α ε ε' : Type} {x : Except ε α} {f : ε → ε'} {e' : ε'} :
    x.mapError f = .error e' ↔ ∃ e, x = .error e ∧ f e = e' := by
  cases x <;> simp

theorem toOption_eq_some {α ε : Type} {x : Except ε α} {a : α} :
    x.toOption = some a ↔ x = .ok a := by
  cases x <;> simp [Except.toOption]

theorem toOption_map_eq_some {α β ε : Type} {x : Except ε α} {f : α → β} {b : β} :
    x.toOption.map f = some b ↔ ∃ a, x = .ok a ∧ f a = b := by
  cases x <;> simp [Except.toOption]

theorem entryAt_eq_ok : w.entryAt ending text = .ok e ↔
    ∃ l, w.locate ending text = .ok l ∧ w.tree.find? l = some e := by
  unfold entryAt
  cases w.locate ending text with
  | error f => simp [Except.bind]
  | ok l => cases hfind : w.tree.find? l <;> simp [Except.bind, hfind]

theorem entryAt_eq_error {f : Failure} (h : w.entryAt ending text = .error f) :
    w.locate ending text = .error f ∨
      ∃ l, w.locate ending text = .ok l ∧ w.tree.find? l = none ∧ f = .call .noEntry text := by
  unfold entryAt at h
  cases hl : w.locate ending text with
  | error f' =>
    rw [hl] at h
    exact .inl (by simpa [Except.bind] using h)
  | ok l =>
    rw [hl] at h
    cases hfind : w.tree.find? l with
    | none => exact .inr ⟨l, rfl, hfind, by simpa [Except.bind, hfind] using h.symm⟩
    | some e => simp [Except.bind, hfind] at h

def startOf (w : World) (text : String) : Except Errno Location :=
  if (Route.ofString text).absolute then .ok [] else w.cwdLocation

theorem locate_eq_ok_iff : w.locate ending text = .ok l ↔
    (Text.holds Text.nul text = false ∧ text.utf8ByteSize < maxPath ∧ text ≠ "") ∧
    ∃ start, w.startOf text = .ok start ∧
      w.tree.walk ending maxLinks start (Route.ofString text).steps
        (Route.ofString text).slashed = .ok l := by
  unfold locate startOf
  cases Text.holds Text.nul text with
  | true => simp
  | false =>
    by_cases hlong : maxPath ≤ text.utf8ByteSize
    · simp [hlong, Nat.not_lt.mpr hlong]
    · by_cases hempty : text = ""
      · simp only [if_neg hlong, if_pos hempty]
        simp [hempty]
      · cases habs : (Route.ofString text).absolute with
        | true => simp [hlong, hempty, habs, mapError_eq_ok, follow, Nat.lt_of_not_le hlong]
        | false =>
          cases hcwd : w.cwdLocation with
          | error x => simp [hlong, hempty, habs, Except.bind]
          | ok start =>
            simp [hlong, hempty, habs, Except.bind, mapError_eq_ok, follow, Nat.lt_of_not_le hlong]

theorem solid_of_startOf (h : w.startOf text = .ok start) : w.tree.Solid start := by
  unfold startOf at h
  split at h
  · exact Except.ok.inj h ▸ solid_nil w.tree
  · refine (leads_of_walk (.inl rfl) h).solid ?_
    split <;> exact solid_nil w.tree

theorem locate_text (hp : p.Proper) (habs : p.isAbsolute = true) : w.locate ending p.text =
    if Text.holds Text.nul p.text then .error .nulInPath
    else if maxPath ≤ p.text.utf8ByteSize then .error (.call .nameTooLong p.text)
    else (w.tree.walk ending maxLinks [] p.parts p.parts.isEmpty).mapError (.call · p.text) := by
  have hne : p.text ≠ "" := by
    intro he
    have hstart := Path.startsWith_text habs
    rw [he] at hstart
    exact absurd hstart (by decide)
  unfold locate
  split
  · rfl
  · by_cases hlong : maxPath ≤ p.text.utf8ByteSize
    · simp [hlong]
    · rw [if_neg hlong, if_neg hlong, Path.route_text hp habs]
      rfl

theorem entryAt_of_long (hp : p.Proper) (habs : p.isAbsolute = true)
    (hnul : Text.holds Text.nul p.text = false) (hlong : maxPath ≤ p.text.utf8ByteSize) :
    w.entryAt ending p.text = .error (.call .nameTooLong p.text) := by
  rw [entryAt, locate_text hp habs, hnul, if_neg Bool.false_ne_true, if_pos hlong]
  rfl

theorem walk_of_locate (hp : p.Proper) (habs : p.isAbsolute = true)
    (h : w.locate ending p.text = .ok l) :
    w.tree.walk ending maxLinks [] p.parts p.parts.isEmpty = .ok l := by
  rw [locate_text hp habs] at h
  split at h
  · exact absurd h nofun
  · split at h
    · exact absurd h nofun
    · cases hwalk : w.tree.walk ending maxLinks [] p.parts p.parts.isEmpty with
      | error x => rw [hwalk] at h; exact absurd h nofun
      | ok m => rw [hwalk] at h; exact congrArg Except.ok (Except.ok.inj h)

theorem locate_follow (hpart : w.tree.PartOf t) (hp : p.Proper) (habs : p.isAbsolute = true)
    (hsolid : t.Solid p.parts) (h : w.locate .follow p.text = .ok l) : l = p.parts :=
  eq_of_walk_follow hpart hsolid (walk_of_locate hp habs h)

theorem locate_keep (hpart : w.tree.PartOf t) (hp : p.Proper) (habs : p.isAbsolute = true)
    (hplain : t.Plain p.parts) (h : w.locate .keep p.text = .ok l) : l = p.parts :=
  eq_of_walk_keep hpart hplain (walk_of_locate hp habs h)

theorem find?_of_lstat (hp : p.Proper) (habs : p.isAbsolute = true) (hplain : w.tree.Plain p.parts)
    (h : w.lstat p.text = .ok e) : w.tree.find? p.parts = some e := by
  obtain ⟨l, hl, hfind⟩ := entryAt_eq_ok.mp h
  rwa [locate_keep (PartOf.refl _) hp habs hplain hl] at hfind

/-- What the tree holds is seen at its place, unless a directory above may not be searched or the
path is too long, or no path at all. -/
theorem lstat_place (hp : p.Proper) (habs : p.isAbsolute = true)
    (hfind : w.tree.find? p.parts = some e) :
    w.lstat p.text = .ok e ∨ w.lstat p.text = .error (.call .noAccess p.text) ∨
      w.lstat p.text = .error (.call .nameTooLong p.text) ∨ w.lstat p.text = .error .nulInPath := by
  have hwalk : w.tree.walk .keep maxLinks [] p.parts p.parts.isEmpty = .ok p.parts ∨
      w.tree.walk .keep maxLinks [] p.parts p.parts.isEmpty = .error .noAccess ∨
      w.tree.walk .keep maxLinks [] p.parts p.parts.isEmpty = .error .nameTooLong := by
    by_cases hne : p.parts = []
    · simp [hne]
    · rw [List.isEmpty_eq_false_iff.mpr hne]
      have hplace : w.tree.find? ([] ++ p.parts) = some e := hfind
      exact walk_place hplace
  unfold lstat entryAt
  rw [locate_text hp habs]
  split
  · simp [Except.bind]
  · split
    · simp [Except.bind]
    · obtain h | h | h := hwalk <;> simp [h, Except.bind, hfind]

theorem lstat_of_stat (hp : p.Proper) (habs : p.isAbsolute = true) (h : w.stat p.text = .ok e) :
    ∃ e', w.lstat p.text = .ok e' := by
  obtain ⟨l, hl, -⟩ := entryAt_eq_ok.mp h
  have hkeep : ∃ m, w.tree.walk .keep maxLinks [] p.parts p.parts.isEmpty = .ok m := by
    have hwalk := walk_of_locate hp habs hl
    by_cases hnil : p.parts = []
    · exact ⟨[], by simp [hnil]⟩
    · have hfollow : Ending.follow ≠ .create := nofun
      rw [List.isEmpty_eq_false_iff.mpr hnil] at hwalk ⊢
      rw [← List.append_nil p.parts] at hwalk
      exact walk_keep_of_append hfollow hwalk
  obtain ⟨m, hm⟩ := hkeep
  have hfind : w.tree.Occupied m := by
    by_cases hnil : p.parts = []
    · rw [hnil] at hm
      obtain rfl : [] = m := by simpa using hm
      exact ⟨_, find?_nil _⟩
    · rw [List.isEmpty_eq_false_iff.mpr hnil] at hm
      exact occupied_of_walk (solid_nil _) hm
  obtain ⟨e', he'⟩ := hfind
  refine ⟨e', entryAt_eq_ok.mpr ⟨m, ?_, he'⟩⟩
  rw [locate_text hp habs] at hl ⊢
  split at hl
  · exact absurd hl nofun
  · rename_i hnul
    split at hl
    · exact absurd hl nofun
    · rename_i hlong
      rw [if_neg hnul, if_neg hlong, hm]
      rfl

def Rooted (P : Location → Prop) (p : Path) : Prop :=
  p.root = .single ∧ P p.parts

theorem Rooted.isAbsolute (h : Rooted P p) : p.isAbsolute = true :=
  Path.isAbsolute_iff.mpr (.inl h.1)

theorem Rooted.proper (h : Rooted t.Occupied p) : p.Proper := by
  obtain ⟨-, e, he⟩ := h
  exact fun s hs => Path.isPart_of_isName (isName_of_find? he s hs)

theorem Rooted.occupied (h : Rooted t.Solid p) : Rooted t.Occupied p := by
  obtain ⟨hroot, e, he, -⟩ := h
  exact ⟨hroot, e, he⟩

/-- A call takes the canonical path of a location: it is short enough and holds no character that
paths cannot hold. -/
def Fits (l : Location) : Prop :=
  Text.holds Text.nul (Path.mk .single l).text = false ∧
    (Path.mk .single l).text.utf8ByteSize < maxPath

theorem fits_nil : Fits [] := by
  unfold Fits
  decide

theorem Fits.above {front : Location} (h : Fits l) (hfront : front <+: l) : Fits front := by
  obtain ⟨tail, htail⟩ := Path.text_above .single nofun hfront
  have htext : (Path.mk .single l).text =
      (Path.mk .single front).text ++ String.ofList tail := by
    apply String.toList_injective
    simp [htail]
  have hsize := congrArg String.utf8ByteSize htext
  rw [String.utf8ByteSize_append] at hsize
  refine ⟨?_, by have := h.2; omega⟩
  have hnul := h.1
  simp only [Text.holds, List.contains_eq_mem, decide_eq_false_iff_not] at hnul ⊢
  intro hmem
  apply hnul
  rw [← htail]
  exact List.mem_append_left tail hmem

theorem holds_nul_append_singleton
    (hl : Text.holds Text.nul (Path.mk .single l).text = false)
    (hs : Text.holds Text.nul s = false) :
    Text.holds Text.nul (Path.mk .single (l ++ [s])).text = false := by
  have hnul : Text.nul ≠ '/' := by decide
  rw [← Bool.not_eq_true, Path.holds_text rfl hnul] at hl ⊢
  rintro ⟨n, hn, hholds⟩
  obtain hn | hn := List.mem_append.mp hn
  · exact hl ⟨n, hn, hholds⟩
  · rw [List.mem_singleton.mp hn, hs] at hholds
    exact absurd hholds nofun

theorem fits_append_singleton (h : Fits l) (hs : Text.holds Text.nul s = false)
    (hsize : (Path.mk .single (l ++ [s])).text.utf8ByteSize < maxPath) : Fits (l ++ [s]) :=
  ⟨holds_nul_append_singleton h.1 hs, hsize⟩

theorem fits_of_locate (hp : (Path.mk .single l).Proper) {m : Location}
    (h : w.locate ending (Path.mk .single l).text = .ok m) : Fits l := by
  rw [locate_text hp rfl] at h
  split at h
  · exact absurd h nofun
  · rename_i hnul
    split at h
    · exact absurd h nofun
    · rename_i hlong
      exact ⟨by simpa using hnul, by omega⟩

theorem locate_of_fits (hp : (Path.mk .single l).Proper) (h : Fits l) :
    w.locate ending (Path.mk .single l).text =
      (w.tree.walk ending maxLinks [] l l.isEmpty).mapError (.call · (Path.mk .single l).text) := by
  have hlong : ¬maxPath ≤ (Path.mk .single l).text.utf8ByteSize := by
    have := h.2
    omega
  rw [locate_text hp rfl, h.1, if_neg Bool.false_ne_true, if_neg hlong]

theorem pathOf_eq_text (l : Location) : pathOf l = (Path.mk .single l).text := by
  simp [pathOf, Path.text, Root.text]

theorem cwdLocation_of_getcwd {text : String} (h : w.getcwd = .ok text) :
    ∃ l, w.cwdLocation = .ok l ∧ w.tree.isDir l = true ∧ Path.ofString text = ⟨.single, l⟩ := by
  unfold getcwd at h
  split at h
  · rename_i l hcwd
    split at h
    · rename_i hdir
      obtain ⟨d, hd⟩ := isDir_iff.mp hdir
      refine ⟨l, hcwd, hdir, ?_⟩
      have hproper : (Path.mk .single l).Proper :=
        fun s hs => Path.isPart_of_isName (isName_of_find? hd s hs)
      rw [← Except.ok.inj h, pathOf_eq_text]
      exact Path.ofString_text hproper rfl
    · exact absurd h nofun
  · exact absurd h nofun

theorem ofString_getcwd {text : String} (h : w.getcwd = .ok text) :
    ∃ l, w.tree.isDir l = true ∧ Path.ofString text = ⟨.single, l⟩ := by
  obtain ⟨l, -, hdir, htext⟩ := cwdLocation_of_getcwd h
  exact ⟨l, hdir, htext⟩

theorem list_eq_ok {entries : List (String × Entry)} (hpart : w.tree.PartOf t)
    (hp : Rooted t.Solid p) (h : w.list p.text = .ok entries) :
    w.tree.isDir p.parts = true ∧ entries = w.tree.children p.parts := by
  obtain ⟨l, hl, h⟩ := bind_eq_ok.mp h
  obtain rfl := locate_follow hpart hp.occupied.proper hp.isAbsolute hp.2 hl
  split at h
  · rename_i deny hfind
    split at h
    · exact absurd h nofun
    · exact ⟨isDir_iff.mpr ⟨deny, hfind⟩, (Except.ok.inj h).symm⟩
  · exact absurd h nofun

theorem find?_child_of_list {entries : List (String × Entry)} {e : String × Entry}
    (hpart : w.tree.PartOf t) (hp : Rooted t.Solid p) (hlist : w.list p.text = .ok entries)
    (he : e ∈ entries) : (p.child e.1).root = .single ∧ t.find? (p.child e.1).parts = some e.2 := by
  obtain ⟨-, rfl⟩ := list_eq_ok hpart hp hlist
  exact ⟨hp.1, hpart _ _ (mem_children.mp he)⟩

end DeletionGuard.World
