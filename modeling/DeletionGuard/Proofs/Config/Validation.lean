import DeletionGuard.Proofs.Config.Loading
import Mathlib.Algebra.Ring.Int.Defs
import Mathlib.Algebra.Ring.Nat
import Mathlib.Data.List.Forall2

/-!
A configuration is taken whole or not at all. Validation finds everything that is wrong with a
table, each thing once and in the order of the scheme, and nothing else. Where it finds nothing, the
settings of the file are taken as they stand; in every other case in which a configuration is loaded
it is the one without a file. Only a wrong value that is too long to be written keeps validation
from its messages.
-/
namespace DeletionGuard
open Toml (Table Value)
variable {w : World} {path : Path} {t entry : Table} {v item : Value} {items : List Value}
  {index n : Nat} {setting : Option Value} {violation : Value → Violation} {x y : Violation}
  {c : Config} {settings : Settings} {data : ByteArray} {f : Failure}

inductive Toml.Value.Violates (item : Value) (index : Nat) : Violation → Prop where
  | notATable (h : ∀ entry, item ≠ .table entry) : Violates item index (.notATable index)
  | noPath {entry : Table} (h : item = .table entry)
      (hpath : ∀ s, entry.setting "path" = some (.string s) → s = "") :
      Violates item index (.noPath index)
  | recursive {entry : Table} {v : Value} (h : item = .table entry)
      (hset : entry.setting "recursive" = some v) (hv : ∀ b, v ≠ .boolean b) :
      Violates item index (.recursive index v)

namespace Toml.Table

/-- Something is wrong with a table. An item is named by its place. -/
inductive Violates (t : Table) : Violation → Prop where
  | projectDeletion {v : Value} (hset : t.setting "allow_project_deletion" = some v)
      (hv : ∀ b, v ≠ .boolean b) : Violates t (.projectDeletion v)
  | notAnArray {v : Value} (hset : t.setting "allowed_paths" = some v)
      (hv : ∀ items, v ≠ .array items) : Violates t .notAnArray
  | item {items : List Value} {item : Value} {index : Nat} {x : Violation}
      (hset : t.setting "allowed_paths" = some (.array items))
      (hitem : items[index]? = some item) (hx : item.Violates index x) : Violates t x

/-- What a configuration file may say. -/
structure Follows (t : Table) : Prop where
  projectDeletion : ∀ v, t.setting "allow_project_deletion" = some v → ∃ b, v = .boolean b
  allowedPaths : ∀ v, t.setting "allowed_paths" = some v → ∃ items, v = .array items ∧
    ∀ item ∈ items, ∃ entry : Table, item = .table entry ∧
      (∃ s, entry.setting "path" = some (.string s) ∧ s ≠ "") ∧
      ∀ r, entry.setting "recursive" = some r → ∃ b, r = .boolean b

theorem follows_iff : t.Follows ↔ ∀ x, ¬t.Violates x := by
  constructor
  · rintro ⟨hflag, hpaths⟩ x hx
    cases hx with
    | projectDeletion hset hv =>
      obtain ⟨b, hb⟩ := hflag _ hset
      exact hv b hb
    | notAnArray hset hv =>
      obtain ⟨items, hitems, -⟩ := hpaths _ hset
      exact hv items hitems
    | item hset hitem hx =>
      obtain ⟨items, hitems, hall⟩ := hpaths _ hset
      obtain rfl := Value.array.inj hitems
      obtain ⟨entry, rfl, ⟨s, hs, hne⟩, hrecursive⟩ := hall _ (List.mem_of_getElem? hitem)
      cases hx with
      | notATable h => exact h entry rfl
      | noPath h hpath =>
        obtain rfl := Value.table.inj h
        exact hne (hpath s hs)
      | recursive h hset hv =>
        obtain rfl := Value.table.inj h
        obtain ⟨b, hb⟩ := hrecursive _ hset
        exact hv b hb
  · intro hnone
    refine ⟨fun v hset => ?_, fun v hset => ?_⟩
    · by_contra hv
      exact hnone _ (.projectDeletion hset (not_exists.mp hv))
    · by_cases harray : ∃ items, v = .array items
      · obtain ⟨items, rfl⟩ := harray
        refine ⟨items, rfl, fun item hmem => ?_⟩
        obtain ⟨index, hitem⟩ := List.mem_iff_getElem?.mp hmem
        have hright (x : Violation) : ¬item.Violates index x :=
          fun hx => hnone x (.item hset hitem hx)
        by_cases htable : ∃ entry, item = .table entry
        · obtain ⟨entry, rfl⟩ := htable
          refine ⟨entry, rfl, ?_, fun r hr => ?_⟩
          · by_contra hpath
            refine hright _ (.noPath rfl fun s hs => ?_)
            by_contra hne
            exact hpath ⟨s, hs, hne⟩
          · by_contra hv
            exact hright _ (.recursive rfl hr (not_exists.mp hv))
        · exact absurd (.notATable (not_exists.mp htable)) (hright _)
      · exact absurd (.notAnArray hset (not_exists.mp harray)) (hnone _)

end Toml.Table

namespace Violation

theorem mem_ofFlag : x ∈ ofFlag setting violation ↔
    ∃ v, setting = some v ∧ (∀ b, v ≠ .boolean b) ∧ x = violation v := by
  unfold ofFlag
  split
  · simp
  · simp
  · rename_i found hboolean
    simp only [List.mem_singleton, Option.some.injEq]
    constructor
    · rintro rfl
      exact ⟨found, rfl, hboolean, rfl⟩
    · rintro ⟨v, rfl, -, rfl⟩
      rfl

theorem mem_ofPath : x ∈ ofPath index entry ↔
    (∀ s, entry.setting "path" = some (.string s) → s = "") ∧ x = .noPath index := by
  unfold ofPath
  split
  · rename_i s hs
    by_cases hne : s = "" <;> simp [hs, hne]
  · rename_i hother
    simp only [List.mem_singleton, iff_and_self]
    exact fun _ s hs => absurd hs (hother s)

theorem mem_ofItem : x ∈ ofItem index item ↔ item.Violates index x := by
  constructor
  · intro hx
    unfold ofItem at hx
    split at hx
    · rename_i entry
      obtain hx | hx := List.mem_append.mp hx
      · obtain ⟨hpath, rfl⟩ := mem_ofPath.mp hx
        exact .noPath rfl hpath
      · obtain ⟨v, hset, hv, rfl⟩ := mem_ofFlag.mp hx
        exact .recursive rfl hset hv
    · rename_i hother
      rw [List.mem_singleton.mp hx]
      exact .notATable hother
  · intro hx
    cases hx with
    | notATable h =>
      unfold ofItem
      split
      · rename_i entry
        exact absurd rfl (h entry)
      · exact List.mem_singleton_self _
    | noPath h hpath =>
      rw [h]
      exact List.mem_append_left _ (mem_ofPath.mpr ⟨hpath, rfl⟩)
    | recursive h hset hv =>
      rw [h]
      exact List.mem_append_right _ (mem_ofFlag.mpr ⟨_, hset, hv, rfl⟩)

theorem mem_ofItems : x ∈ ofItems items ↔
    ∃ index, ∃ item : Value, items[index]? = some item ∧ item.Violates index x := by
  simp only [ofItems, List.mem_flatMap, Prod.exists, List.mem_zipIdx_iff_getElem?, mem_ofItem]
  exact exists_comm

theorem mem_ofTable : x ∈ ofTable t ↔ t.Violates x := by
  unfold ofTable
  rw [List.mem_append, mem_ofFlag]
  constructor
  · rintro (⟨v, hset, hv, rfl⟩ | hx)
    · exact .projectDeletion hset hv
    · split at hx
      · exact absurd hx List.not_mem_nil
      · rename_i items hset
        obtain ⟨index, item, hitem, hx⟩ := mem_ofItems.mp hx
        exact .item hset hitem hx
      · rename_i found hother hset
        rw [List.mem_singleton.mp hx]
        exact .notAnArray hset fun items hitems => hother items (by rw [hitems])
  · intro hx
    cases hx with
    | projectDeletion hset hv => exact .inl ⟨_, hset, hv, rfl⟩
    | notAnArray hset hv =>
      refine .inr ?_
      rw [hset]
      split
      · rename_i hnone
        exact absurd hnone nofun
      · rename_i items hitems
        exact absurd (Option.some.inj hitems) (hv items)
      · exact List.mem_singleton_self _
    | item hset hitem hx =>
      refine .inr ?_
      rw [hset]
      exact mem_ofItems.mpr ⟨_, _, hitem, hx⟩

def position : Violation → Nat
  | projectDeletion _ => 0
  | notAnArray => 1
  | notATable index | noPath index => 2 * index + 2
  | recursive index _ => 2 * index + 3

theorem position_of_item (h : item.Violates index x) :
    2 * index + 2 ≤ x.position ∧ x.position < 2 * (index + 1) + 2 := by
  cases h <;> simp only [position] <;> omega

theorem pairwise_ofFlag :
    (ofFlag setting violation).Pairwise fun x y => x.position < y.position := by
  unfold ofFlag
  split
  · exact .nil
  · exact .nil
  · exact List.pairwise_singleton _ _

theorem pairwise_ofPath : (ofPath index entry).Pairwise fun x y => x.position < y.position := by
  unfold ofPath
  split
  · split
    · exact List.pairwise_singleton _ _
    · exact .nil
  · exact List.pairwise_singleton _ _

theorem pairwise_ofItem : (ofItem index item).Pairwise fun x y => x.position < y.position := by
  unfold ofItem
  split
  · refine List.pairwise_append.mpr ⟨pairwise_ofPath, pairwise_ofFlag, fun x hx y hy => ?_⟩
    · obtain ⟨-, rfl⟩ := mem_ofPath.mp hx
      obtain ⟨v, -, -, rfl⟩ := mem_ofFlag.mp hy
      simp only [position]
      omega
  · exact List.pairwise_singleton _ _

theorem pairwise_flatMap_zipIdx :
    ((items.zipIdx n).flatMap fun (item, index) => ofItem index item).Pairwise
      fun x y => x.position < y.position := by
  induction items generalizing n with
  | nil => exact .nil
  | cons item rest ih =>
    rw [List.zipIdx_cons, List.flatMap_cons]
    refine List.pairwise_append.mpr ⟨pairwise_ofItem, ih, fun x hx y hy => ?_⟩
    obtain ⟨⟨other, index⟩, hmem, hy⟩ := List.mem_flatMap.mp hy
    have hle := (List.mk_mem_zipIdx_iff_le_and_getElem?_sub.mp hmem).1
    have hlow := (position_of_item (mem_ofItem.mp hx)).2
    have hhigh := (position_of_item (mem_ofItem.mp hy)).1
    omega

theorem pairwise_ofTable (t : Table) :
    (ofTable t).Pairwise fun x y => x.position < y.position := by
  unfold ofTable
  refine List.pairwise_append.mpr ⟨pairwise_ofFlag, ?_, fun x hx y hy => ?_⟩
  · split
    · exact .nil
    · exact pairwise_flatMap_zipIdx
    · exact List.pairwise_singleton _ _
  · obtain ⟨v, -, -, rfl⟩ := mem_ofFlag.mp hx
    split at hy
    · exact absurd hy List.not_mem_nil
    · obtain ⟨index, item, -, hy⟩ := mem_ofItems.mp hy
      exact Nat.lt_of_lt_of_le (Nat.succ_pos _) (position_of_item hy).1
    · rw [List.mem_singleton.mp hy]
      exact Nat.zero_lt_one

theorem ofTable_eq_nil_iff : ofTable t = [] ↔ t.Follows := by
  rw [Table.follows_iff, List.eq_nil_iff_forall_not_mem]
  exact forall_congr' fun x => not_congr mem_ofTable

def index? : Violation → Option Nat
  | projectDeletion _ | notAnArray => none
  | notATable index | noPath index | recursive index _ => some index

theorem report_eq_ok_iff {messages : List String} : report t = .ok messages ↔
    (∀ x, t.Violates x → x.isWritable = true) ∧ messages = (ofTable t).map message := by
  unfold report
  simp only [← mem_ofTable, ← List.all_eq_true]
  by_cases hall : (ofTable t).all isWritable = true <;> simp [hall, eq_comm]

theorem message_of_index (h : x.index? = some n) :
    ∃ rest, x.message = "Invalid allowed_paths[" ++ Nat.repr n ++ "]" ++ rest := by
  cases x with
  | projectDeletion | notAnArray => exact absurd h nofun
  | notATable index | noPath index =>
    obtain rfl := Option.some.inj h
    exact ⟨_, rfl⟩
  | recursive index found =>
    obtain rfl := Option.some.inj h
    exact ⟨".recursive" ++ notBoolean found, String.append_assoc⟩

theorem readingOf_eq_failed : World.readingOf t = .failed f ↔ report t = .error f := by
  unfold World.readingOf
  cases hreport : report t with
  | error f' => simp only [Reading.failed.injEq, Except.error.injEq]
  | ok messages =>
    dsimp only
    repeat' split
    all_goals exact iff_of_false (by rintro ⟨⟩) (by rintro ⟨⟩)

end Violation

/-- Validation finds just what is wrong with a table, each thing once and in order, and says so if
it can be written. -/
structure Toml.Table.Validated (t : Table) : Prop where
  follows : Violation.report t = .ok [] ↔ t.Follows
  found : ∀ x, x ∈ Violation.ofTable t ↔ t.Violates x
  ordered : (Violation.ofTable t).Pairwise fun x y => x.position < y.position
  named : ∀ x ∈ Violation.ofTable t, ∀ n, x.index? = some n →
    ∃ rest, x.message = "Invalid allowed_paths[" ++ Nat.repr n ++ "]" ++ rest
  returned : (∃ messages, Violation.report t = .ok messages) ↔
    ∀ x, t.Violates x → x.isWritable = true
  messages : ∀ messages, Violation.report t = .ok messages →
    messages = (Violation.ofTable t).map Violation.message
  failed : ∀ f, World.readingOf t = .failed f ↔ Violation.report t = .error f

theorem Toml.Table.validated (t : Table) : t.Validated where
  follows := by
    rw [Violation.report_eq_ok_iff, ← Violation.ofTable_eq_nil_iff, eq_comm, List.map_eq_nil_iff]
    refine ⟨fun h => h.2, fun h => ⟨fun x hx => ?_, h⟩⟩
    exact absurd (Violation.mem_ofTable.mpr hx) (h ▸ List.not_mem_nil)
  found _ := Violation.mem_ofTable
  ordered := Violation.pairwise_ofTable t
  named _ _ _ := Violation.message_of_index
  returned := by simp only [Violation.report_eq_ok_iff, exists_and_left, exists_eq, and_true]
  messages _ h := (Violation.report_eq_ok_iff.mp h).2
  failed _ := Violation.readingOf_eq_failed

def AllowedPath.TakenFrom (a : AllowedPath) (item : Value) : Prop :=
  ∃ entry : Table, item = .table entry ∧ entry.setting "path" = some (.string a.path) ∧
    (entry.setting "recursive").getD (.boolean false) = .boolean a.recursive

/-- Settings are those of a table, one allowed path for each item and in the same order. -/
structure Settings.TakenFrom (s : Settings) (t : Table) : Prop where
  projectDeletion : (t.setting "allow_project_deletion").getD (.boolean true) =
    .boolean s.allowProjectDeletion
  allowedPaths : ∃ items, (t.setting "allowed_paths").getD (.array []) = .array items ∧
    List.Forall₂ AllowedPath.TakenFrom s.allowedPaths items

namespace Settings

theorem flag?_eq_some {b : Bool} : flag? v = some b ↔ v = .boolean b := by
  cases v <;> simp [flag?]

theorem taken_of_draft {draft : PathDraft} {a : AllowedPath} (hv : item.Filled)
    (hdraft : PathDraft.ofValue item = .ok draft) (ha : allowedPath? draft = some a) :
    a.TakenFrom item := by
  unfold PathDraft.ofValue at hdraft
  split at hdraft
  · rename_i entry
    have hsetting := Table.setting_eq_lookup hv.of_table
    split at hdraft
    · rename_i path hpath
      obtain rfl := Except.ok.inj hdraft
      unfold allowedPath? at ha
      split at ha
      · rename_i text recursive htext hrecursive
        obtain rfl := Option.some.inj ha
        dsimp only at htext hrecursive
        rw [flag?_eq_some] at hrecursive
        exact ⟨entry, rfl, by rw [hsetting, hpath, htext], by rw [hsetting, hrecursive]⟩
      · exact absurd ha nofun
    · exact absurd hdraft nofun
  · exact absurd hdraft nofun

theorem taken_of_drafts {drafts : List PathDraft} {paths : List AllowedPath}
    (hitems : ∀ v ∈ items, v.Filled) (hdrafts : items.mapM PathDraft.ofValue = .ok drafts)
    (hpaths : drafts.mapM allowedPath? = some paths) :
    List.Forall₂ AllowedPath.TakenFrom paths items := by
  induction items generalizing drafts paths with
  | nil =>
    obtain rfl := Except.ok.inj hdrafts
    obtain rfl := Option.some.inj hpaths
    exact .nil
  | cons v rest ih =>
    obtain ⟨hv, hrest⟩ := List.forall_mem_cons.mp hitems
    rw [List.mapM_cons] at hdrafts
    obtain ⟨draft, hdraft, hdrafts⟩ := World.bind_eq_ok.mp hdrafts
    obtain ⟨others, hothers, hdrafts⟩ := World.bind_eq_ok.mp hdrafts
    obtain rfl := Except.ok.inj hdrafts
    rw [List.mapM_cons] at hpaths
    obtain ⟨a, ha, hpaths⟩ := Option.bind_eq_some_iff.mp hpaths
    obtain ⟨more, hmore, hpaths⟩ := Option.bind_eq_some_iff.mp hpaths
    obtain rfl := Option.some.inj hpaths
    exact .cons (taken_of_draft hv hdraft ha) (ih hrest hothers hmore)

theorem array_of_follows (h : t.Follows) :
    ∃ items, (t.setting "allowed_paths").getD (.array []) = .array items := by
  cases hset : t.setting "allowed_paths" with
  | none => exact ⟨[], rfl⟩
  | some v =>
    obtain ⟨items, rfl, -⟩ := h.allowedPaths v hset
    exact ⟨items, rfl⟩

theorem taken_of_ofTable? (ht : t.Filled) (hfollows : t.Follows)
    (h : Settings.ofTable? t = some settings) : settings.TakenFrom t := by
  obtain ⟨draft, hdraft, hsettings⟩ := Option.bind_eq_some_iff.mp h
  obtain ⟨items, hitems, hdraft⟩ := World.bind_eq_ok.mp (World.toOption_eq_some.mp hdraft)
  obtain ⟨drafts, hdrafts, rfl⟩ := World.map_eq_ok.mp hdraft
  have hsetting := Table.setting_eq_lookup ht
  obtain ⟨array, harray⟩ := array_of_follows hfollows
  rw [← hsetting, harray] at hitems
  obtain rfl := Except.ok.inj hitems
  have hfilled : (Value.array array).Filled := by
    cases hset : t.setting "allowed_paths" with
    | none =>
      rw [hset] at harray
      exact harray ▸ .array nofun
    | some v =>
      rw [hset] at harray
      obtain rfl : v = .array array := harray
      rw [hsetting] at hset
      exact ht.lookup hset
  unfold ofDraft? at hsettings
  split at hsettings
  · rename_i allowed paths hallowed hpaths
    obtain rfl := Option.some.inj hsettings
    dsimp only at hallowed hpaths
    rw [flag?_eq_some, ← hsetting] at hallowed
    exact ⟨hallowed, array, harray, taken_of_drafts hfilled.of_array hdrafts hpaths⟩
  · exact absurd hsettings nofun

end Settings

namespace World

/-- A configuration is taken whole from a file that can be read and says nothing wrong, with the
rules that its allowed paths give; else it is the one without a file. -/
structure TakesWhole (w : World) (path : Path) (c : Config) : Prop where
  whole : ∀ data t, w.ReadsAs path data → Table.ofBytes data = .ok t → t.Follows →
    c.settings.TakenFrom t ∧ w.rulesOf c.settings.allowedPaths = .ok c.rules ∧ c.source = some path
  otherwise : (¬∃ data t, w.ReadsAs path data ∧ Table.ofBytes data = .ok t ∧ t.Follows) →
    c = .default

theorem takes_of_reading (hreads : w.ReadsAs path data) (ht : Table.ofBytes data = .ok t)
    (h : w.loadConfigAt path = .ok c) :
    t.Follows ∧ c.settings.TakenFrom t ∧ w.rulesOf c.settings.allowedPaths = .ok c.rules ∧
      c.source = some path ∨ ¬t.Follows ∧ c = .default := by
  have hfilled := Table.filled_ofBytes ht
  rw [loadConfigAt, readConfig_of_readsAs hreads ht] at h
  rw [← Violation.ofTable_eq_nil_iff]
  obtain ⟨settings, hvalid, hsettings, hreading⟩ | ⟨hwrong, -, hreading⟩ | ⟨-, hreading⟩ :=
    readingOf_cases hfilled
  · simp only [hreading] at h
    obtain ⟨rules, hrules, rfl⟩ := map_eq_ok.mp h
    have hfollows := Violation.ofTable_eq_nil_iff.mp hvalid
    exact .inl ⟨hvalid, Settings.taken_of_ofTable? hfilled hfollows hsettings, hrules, rfl⟩
  · simp only [hreading] at h
    exact .inr ⟨hwrong, (Except.ok.inj h).symm⟩
  · simp only [hreading] at h
    cases h

theorem takesWhole_of_loads (h : w.loadConfigAt path = .ok c) : w.TakesWhole path c := by
  constructor
  · intro data t hreads ht hfollows
    obtain ⟨-, htaken⟩ | ⟨hwrong, -⟩ := takes_of_reading hreads ht h
    · exact htaken
    · exact absurd hfollows hwrong
  · intro hnone
    by_cases hreads : ∃ data, w.ReadsAs path data
    · obtain ⟨data, hreads⟩ := hreads
      cases ht : Table.ofBytes data with
      | ok t =>
        obtain ⟨hfollows, -⟩ | ⟨-, hdefault⟩ := takes_of_reading hreads ht h
        · exact absurd ⟨data, t, hreads, ht, hfollows⟩ hnone
        · exact hdefault
      | error fault =>
        simp only [loadConfigAt, readConfig, hreads.1, hreads.2, ht] at h
        cases fault with
        | longNumber digits => cases h
        | notText | malformed => exact (Except.ok.inj h).symm
    · rw [loadConfigAt_of_not_readsAs (not_exists.mp hreads)] at h
      exact (Except.ok.inj h).symm

/-- Validation is exact, as far as it gives its messages, and a configuration that is loaded is
taken whole or not at all. -/
theorem validated_and_takesWhole (t : Table) (w : World) (path : Path) :
    t.Validated ∧ ∀ c, w.loadConfigAt path = .ok c → w.TakesWhole path c :=
  ⟨t.validated, fun _ => takesWhole_of_loads⟩

end World

theorem Decimal.withinLimit_iff {n : Int} : withinLimit n = true ↔ n.natAbs < 10 ^ digitLimit := by
  rw [withinLimit, decide_eq_true_eq, digitCount, ← Nat.length_repr_le_iff (by decide)]

/-- The flag is an integer of 4335 digits, which a file can give in hexadecimal. -/
def longTable : Table :=
  [("allow_project_deletion", .integer (16 ^ 3600))]

theorem not_returned_long :
    Violation.ofTable longTable = [.projectDeletion (.integer (16 ^ 3600))] ∧
    longTable.Violates (.projectDeletion (.integer (16 ^ 3600))) ∧
    World.readingOf longTable = .failed (.longNumber none) ∧
    ¬∃ messages, Violation.report longTable = .ok messages := by
  have hviolates : longTable.Violates (.projectDeletion (.integer (16 ^ 3600))) :=
    .projectDeletion rfl nofun
  have hlong : (Violation.projectDeletion (.integer (16 ^ 3600))).isWritable = false := by
    rw [← Bool.not_eq_true, Violation.isWritable, Value.isWritable, Decimal.withinLimit_iff]
    decide +kernel
  have hreport : Violation.report longTable = .error (.longNumber none) := by
    have hall : (Violation.ofTable longTable).all Violation.isWritable = false :=
      List.all_eq_false.mpr ⟨_, List.mem_singleton_self _, Bool.not_eq_true _ ▸ hlong⟩
    rw [Violation.report, hall, if_neg Bool.false_ne_true]
  refine ⟨rfl, hviolates, Violation.readingOf_eq_failed.mpr hreport, ?_⟩
  rintro ⟨messages, h⟩
  cases hreport.symm.trans h

end DeletionGuard
