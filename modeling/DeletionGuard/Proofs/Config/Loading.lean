import DeletionGuard.Config.Load
import DeletionGuard.Proofs.Path.Clean
import DeletionGuard.Proofs.Toml.Filled

/-!
When a configuration cannot be loaded. A file that cannot be read or says anything wrong counts as
if it were not there, and an allowed path that cannot be resolved is passed over. Three things stop
the run instead: a decimal integer that is too long to be read, a wrong setting that is too long to
be written into the warning about it, and an allowed path with the character that no path can hold.
-/
namespace DeletionGuard

open Toml (Table Value Fault)

variable {w : World} {path : Path} {t : Table} {v : Value} {items : List Value} {index : Nat}
  {data : ByteArray}

theorem Toml.Table.setting_eq_lookup (h : t.Filled) (key : String) :
    t.setting key = List.lookup key t := by
  unfold Table.setting
  split
  · rename_i hlookup
    exact absurd rfl (h.lookup hlookup).ne_nothing
  · rfl

namespace Violation

theorem flag_of_ofFlag {setting : Option Value} {violation : Value → Violation}
    (h : ofFlag setting violation = []) (default : Bool) :
    ∃ b, Settings.flag? (setting.getD (.boolean default)) = some b := by
  unfold ofFlag at h
  split at h
  · exact ⟨default, rfl⟩
  · rename_i b
    exact ⟨b, rfl⟩
  · exact absurd h nofun

theorem path_of_ofPath (h : ofPath index t = []) : ∃ s, t.setting "path" = some (.string s) := by
  unfold ofPath at h
  split at h
  · rename_i s hsetting
    exact ⟨s, hsetting⟩
  · exact absurd h nofun

theorem described_of_ofItem (hv : v.Filled) (h : ofItem index v = []) :
    ∃ draft path, PathDraft.ofValue v = .ok draft ∧ Settings.allowedPath? draft = some path := by
  unfold ofItem at h
  split at h
  · rename_i entry
    obtain ⟨hpath, hflag⟩ := List.append_eq_nil_iff.mp h
    obtain ⟨s, hs⟩ := path_of_ofPath hpath
    obtain ⟨recursive, hrecursive⟩ := flag_of_ofFlag hflag false
    rw [Table.setting_eq_lookup hv.of_table] at hs hrecursive
    refine ⟨⟨.string s, (List.lookup "recursive" entry).getD (.boolean false)⟩, ⟨s, recursive⟩,
      ?_, ?_⟩
    · simp only [PathDraft.ofValue, hs]
    · simp only [Settings.allowedPath?, hrecursive]
  · exact absurd h (List.cons_ne_nil _ _)

theorem ofItem_of_ofItems (h : ofItems items = []) (hv : v ∈ items) :
    ∃ index, ofItem index v = [] := by
  obtain ⟨i, hi, rfl⟩ := List.mem_iff_getElem.mp hv
  exact ⟨i, List.flatMap_eq_nil_iff.mp h (items[i], i) (by simp [List.mem_zipIdx_iff_getElem?])⟩

end Violation

theorem Settings.exists_paths
    (h : ∀ v ∈ items, ∃ draft path, PathDraft.ofValue v = .ok draft ∧
      Settings.allowedPath? draft = some path) :
    ∃ drafts paths, items.mapM PathDraft.ofValue = .ok drafts ∧
      drafts.mapM Settings.allowedPath? = some paths := by
  induction items with
  | nil => exact ⟨[], [], rfl, rfl⟩
  | cons v rest ih =>
    obtain ⟨draft, path, hdraft, hpath⟩ := h v List.mem_cons_self
    obtain ⟨drafts, paths, hdrafts, hpaths⟩ := ih fun v hv => h v (List.mem_cons_of_mem _ hv)
    refine ⟨draft :: drafts, path :: paths, ?_, ?_⟩
    · rw [List.mapM_cons, hdraft, hdrafts]
      rfl
    · rw [List.mapM_cons, hpath, hpaths]
      rfl

theorem Settings.exists_of_violations (ht : t.Filled) (h : Violation.ofTable t = []) :
    ∃ settings, Settings.ofTable? t = some settings := by
  obtain ⟨hflag, hitems⟩ := List.append_eq_nil_iff.mp h
  obtain ⟨allowed, hallowed⟩ := Violation.flag_of_ofFlag hflag true
  rw [Table.setting_eq_lookup ht] at hallowed hitems
  obtain ⟨items, hlist, hdescribed⟩ : ∃ items,
      itemsOf ((List.lookup "allowed_paths" t).getD (.array [])) = .ok items ∧
      ∀ v ∈ items, ∃ draft path, PathDraft.ofValue v = .ok draft ∧
        Settings.allowedPath? draft = some path := by
    split at hitems
    · rename_i hlookup
      exact ⟨[], by simp [hlookup, itemsOf], nofun⟩
    · rename_i items hlookup
      refine ⟨items, by simp [hlookup, itemsOf], fun v hv => ?_⟩
      obtain ⟨index, hindex⟩ := Violation.ofItem_of_ofItems hitems hv
      exact Violation.described_of_ofItem ((ht.lookup hlookup).of_array v hv) hindex
    · exact absurd hitems nofun
  obtain ⟨drafts, paths, hdrafts, hpaths⟩ := Settings.exists_paths hdescribed
  refine ⟨⟨allowed, paths⟩, ?_⟩
  simp [Settings.ofTable?, Draft.ofValue, hlist, hdrafts, Settings.ofDraft?, hallowed, hpaths,
    Except.bind, Except.map, Except.toOption]

theorem collect_eq_ok_iff {α β ε : Type} {step : α → Except ε (Option β)} {items : List α} :
    (∃ found, collect step items = .ok found) ↔ ∀ a ∈ items, ∃ b, step a = .ok b := by
  induction items with
  | nil => exact ⟨fun _ => nofun, fun _ => ⟨[], rfl⟩⟩
  | cons a rest ih =>
    rw [List.forall_mem_cons, ← ih, collect]
    cases hstep : step a with
    | error e => simp
    | ok b? =>
      cases b? with
      | none => simp
      | some b =>
        cases collect step rest <;> simp [Except.map]

namespace World

def ReadsAs (w : World) (path : Path) (data : ByteArray) : Prop :=
  w.isFile path.text = .ok true ∧ w.read path.text = .ok data

inductive Breaks (w : World) : Except Fault Table → Prop where
  /-- A decimal integer has more digits than are read. -/
  | number (digits : Nat) : Breaks w (.error (.longNumber digits))
  /-- The value of a wrong setting cannot be written. -/
  | warning {t : Table} {v : Violation} (hv : v ∈ Violation.ofTable t)
    (hlong : v.isWritable = false) : Breaks w (.ok t)
  /-- Nothing is wrong with the settings, but an allowed path is none at all. -/
  | allowed {t : Table} {settings : Settings} {a : AllowedPath}
    (hvalid : Violation.ofTable t = []) (hsettings : Settings.ofTable? t = some settings)
    (ha : a ∈ settings.allowedPaths) (hnul : w.directoryOf a.path = .error .nulInPath) :
    Breaks w (.ok t)

/-- The configuration file at a path stops the run. -/
def Fatal (w : World) (path : Path) : Prop :=
  ∃ data, w.ReadsAs path data ∧ w.Breaks (Table.ofBytes data)

theorem directoryOf?_eq_ok_iff {text : String} :
    (∃ d?, w.directoryOf? text = .ok d?) ↔ w.directoryOf text ≠ .error .nulInPath := by
  unfold directoryOf?
  cases w.directoryOf text with
  | ok d => simp
  | error f => by_cases hf : f = .nulInPath <;> simp [hf]

theorem configOf_eq_ok_iff {settings : Settings} {source : Option Path} :
    (∃ c, w.configOf settings source = .ok c) ↔
      ∀ a ∈ settings.allowedPaths, w.directoryOf a.path ≠ .error .nulInPath := by
  have hmap {α β : Type} (x : Except Failure α) (f : α → β) :
      (∃ b, x.map f = .ok b) ↔ ∃ a, x = .ok a := by
    cases x <;> simp [Except.map]
  rw [configOf, hmap, rulesOf, collect_eq_ok_iff]
  simp only [hmap, directoryOf?_eq_ok_iff]

theorem readConfig_of_readsAs {data : ByteArray} {t : Table} (h : w.ReadsAs path data)
    (ht : Table.ofBytes data = .ok t) : w.readConfig path = readingOf t := by
  simp only [readConfig, h.1, h.2, ht]

theorem readingOf_cases (ht : t.Filled) :
    (∃ settings, Violation.ofTable t = [] ∧ Settings.ofTable? t = some settings ∧
      readingOf t = .valid settings) ∨
    (Violation.ofTable t ≠ [] ∧ (∀ v ∈ Violation.ofTable t, v.isWritable = true) ∧
      readingOf t = .invalid (Violation.ofTable t)) ∨
    (∃ v ∈ Violation.ofTable t, v.isWritable = false) ∧
      readingOf t = .failed (.longNumber none) := by
  cases hviolations : Violation.ofTable t with
  | nil =>
    obtain ⟨settings, hsettings⟩ := Settings.exists_of_violations ht hviolations
    refine .inl ⟨settings, rfl, hsettings, ?_⟩
    simp only [readingOf, Violation.report, hviolations, List.all_nil, if_true, hsettings]
  | cons v rest =>
    cases hall : (v :: rest).all Violation.isWritable with
    | true =>
      refine .inr (.inl ⟨nofun, List.all_eq_true.mp hall, ?_⟩)
      simp only [readingOf, Violation.report, hviolations, hall, if_true]
    | false =>
      obtain ⟨v', hv', hlong⟩ := List.all_eq_false.mp hall
      refine .inr (.inr ⟨⟨v', hv', by simpa using hlong⟩, ?_⟩)
      simp only [readingOf, Violation.report, hviolations, hall, Bool.false_eq_true, if_false]

theorem loadConfigAt_of_not_readsAs (h : ∀ data, ¬w.ReadsAs path data) :
    w.loadConfigAt path = .ok .default := by
  unfold loadConfigAt readConfig
  cases hfile : w.isFile path.text with
  | error f => rfl
  | ok isFile =>
    cases isFile with
    | false => rfl
    | true =>
      cases hread : w.read path.text with
      | error f => rfl
      | ok data => exact absurd ⟨hfile, hread⟩ (h data)

theorem loads_of_table (hreads : w.ReadsAs path data) (ht : Table.ofBytes data = .ok t) :
    (∃ c, w.loadConfigAt path = .ok c) ↔ ¬w.Breaks (.ok t) := by
  rw [loadConfigAt, readConfig_of_readsAs hreads ht]
  obtain ⟨settings, hvalid, hsettings, hreading⟩ | ⟨hwrong, hshort, hreading⟩ |
    ⟨⟨v, hv, hlong⟩, hreading⟩ := readingOf_cases (Table.filled_ofBytes ht)
  · simp only [hreading, configOf_eq_ok_iff]
    constructor
    · intro h hbreaks
      cases hbreaks with
      | warning hv _ => exact absurd (hvalid ▸ hv) List.not_mem_nil
      | allowed _ hsettings' ha hnul =>
        obtain rfl := Option.some.inj (hsettings.symm.trans hsettings')
        exact h _ ha hnul
    · exact fun h a ha hnul => h (.allowed hvalid hsettings ha hnul)
  · simp only [hreading, Except.ok.injEq, exists_eq', true_iff]
    intro hbreaks
    cases hbreaks with
    | warning hv hlong => exact absurd (hshort _ hv) (by simp [hlong])
    | allowed hvalid => exact hwrong hvalid
  · simp only [hreading]
    exact ⟨fun ⟨_, h⟩ => absurd h nofun, fun h => absurd (.warning hv hlong) h⟩

theorem loads_of_fault {fault : Fault} (hreads : w.ReadsAs path data)
    (hfault : Table.ofBytes data = .error fault) :
    (∃ c, w.loadConfigAt path = .ok c) ↔ ¬w.Breaks (.error fault) := by
  cases fault with
  | longNumber digits =>
    simp only [loadConfigAt, readConfig, hreads.1, hreads.2, hfault]
    exact ⟨fun ⟨_, h⟩ => absurd h nofun, fun h => absurd (.number digits) h⟩
  | notText | malformed =>
    simp only [loadConfigAt, readConfig, hreads.1, hreads.2, hfault]
    exact ⟨fun _ => nofun, fun _ => ⟨.default, rfl⟩⟩

theorem loads_iff_not_fatal : (∃ c, w.loadConfigAt path = .ok c) ↔ ¬w.Fatal path := by
  by_cases hreads : ∃ data, w.ReadsAs path data
  · obtain ⟨data, hreads⟩ := hreads
    have hfatal : w.Fatal path ↔ w.Breaks (Table.ofBytes data) := by
      refine ⟨fun ⟨data', hreads', h⟩ => ?_, fun h => ⟨data, hreads, h⟩⟩
      rwa [Except.ok.inj (hreads.2.symm.trans hreads'.2)]
    rw [hfatal]
    cases hparsed : Table.ofBytes data with
    | ok t => exact loads_of_table hreads hparsed
    | error fault => exact loads_of_fault hreads hparsed
  · rw [loadConfigAt_of_not_readsAs fun data h => hreads ⟨data, h⟩]
    exact ⟨fun _ ⟨data, h, _⟩ => hreads ⟨data, h⟩, fun _ => ⟨.default, rfl⟩⟩

theorem ne_nil_of_invalid {violations : List Violation}
    (h : w.readConfig path = .invalid violations) : violations ≠ [] := by
  obtain ⟨t, ht, hreading⟩ : ∃ t, t.Filled ∧ readingOf t = .invalid violations := by
    unfold readConfig at h
    repeat' split at h
    all_goals first | exact ⟨_, Table.filled_ofBytes ‹_›, h⟩ | cases h
  obtain ⟨settings, -, -, hother⟩ | ⟨hwrong, -, hother⟩ | ⟨-, hother⟩ := readingOf_cases ht
  · exact absurd (hother.symm.trans hreading) nofun
  · exact Reading.invalid.inj (hother.symm.trans hreading) ▸ hwrong
  · exact absurd (hother.symm.trans hreading) nofun

/-- A configuration is loaded from every path but one at which a file stops the run. What else is
wrong with a file is named, and an allowed path stops the run just if its resolution comes to the
character that no path can hold. -/
theorem loads_iff :
    ((∃ c, w.loadConfigAt path = .ok c) ↔ ¬w.Fatal path) ∧
    (∀ violations, w.readConfig path = .invalid violations → violations ≠ []) ∧
    (w.LinksClean → ∀ text, w.directoryOf text = .error .nulInPath ↔
      w.BreaksOff (Path.ofString (w.expandUser text))) :=
  ⟨loads_iff_not_fatal, fun _ h => ne_nil_of_invalid h,
    fun hlinks _ => resolveStrict_eq_nul_iff (Path.proper_ofString _) hlinks⟩

def escapedWorld : World where
  tree := FileTree.empty.put ["c"]
    (.file "[[allowed_paths]]\npath = \"\\u0000\"\n".toUTF8 .nothing)
  cwd := "/"
  env := []
  users := []
  ownHome := none
  git := none
  trashError := none

theorem not_loads_escaped :
    escapedWorld.readConfig ⟨.single, ["c"]⟩ = .valid ⟨true, [⟨"\x00", false⟩]⟩ ∧
      ¬∃ c, escapedWorld.loadConfigAt ⟨.single, ["c"]⟩ = .ok c := by
  have hvalid : (match escapedWorld.readConfig ⟨.single, ["c"]⟩ with
      | .valid settings => settings = ⟨true, [⟨"\x00", false⟩]⟩
      | _ => false) = true := by decide +kernel
  have hfails : (escapedWorld.loadConfigAt ⟨.single, ["c"]⟩).toOption = none := by decide +kernel
  constructor
  · split at hvalid
    · rename_i hread
      rw [hread, of_decide_eq_true hvalid]
    · exact absurd hvalid nofun
  · rintro ⟨c, hc⟩
    rw [hc] at hfails
    exact absurd hfails nofun

end World
end DeletionGuard
