import DeletionGuard.Batch
import DeletionGuard.Proofs.Path.Nesting
import DeletionGuard.Proofs.Run.Calls

/-!
The evidence behind a status. A path is clean or ignored because of what the listing says of its
key, or of a directory that holds the path. Keys are compared as text; a text that is put before
another with a slash between them names a directory above, since the components of a path hold no
slash. A path that the listing does not know is untracked only if it is seen.
-/
namespace DeletionGuard
open FileTree World

variable {o : Git.Oracle} {w : World} {root p : Path} {directory key : String}

theorem Text.cut_append (sep : Char) (s rest : String) :
    cut sep (s ++ String.singleton sep ++ rest) = cut sep s ++ cut sep rest := by
  simp [cut, List.splitOn_append_cons_self]

namespace Git.Oracle

theorem under_iff : under directory key = true ↔
    key = directory ∨ ∃ rest, key = directory ++ String.singleton '/' ++ rest := by
  unfold under
  rw [Bool.or_eq_true, decide_eq_true_eq, Text.startsWith, List.isPrefixOf_iff_prefix]
  refine or_congr_right ⟨?_, ?_⟩
  · rintro ⟨rest, hrest⟩
    refine ⟨String.ofList rest, String.toList_injective ?_⟩
    simp [← hrest]
  · rintro ⟨rest, rfl⟩
    exact ⟨rest.toList, by simp⟩

/-- A name that only begins alike is no key under the directory. -/
example : under "build" "build2/a" = false := by
  decide

theorem cut_of_under (h : under directory key = true) :
    Text.cut '/' directory <+: Text.cut '/' key := by
  obtain rfl | ⟨rest, rfl⟩ := under_iff.mp h
  · exact List.prefix_refl _
  · rw [Text.cut_append]
    exact List.prefix_append _ _

theorem startsWith_of_under (h : under directory key = true)
    (hstart : Text.startsWith directory "/" = true) : Text.startsWith key "/" = true := by
  rw [Text.startsWith_slash_iff] at hstart ⊢
  obtain rfl | ⟨rest, rfl⟩ := under_iff.mp h
  · exact hstart
  · rw [String.append_assoc, String.toList_append, List.head?_append, hstart, Option.some_or]

theorem join_of_under (hp : p.Proper) (hkey : root.keyFrom p = some key)
    (h : under directory key = true) : ∃ front, front <+: p.parts ∧
      root.join (Path.ofString directory) = ⟨p.root, front⟩ := by
  obtain ⟨hroot, back, hback, rfl⟩ := Path.keyFrom_eq_some.mp hkey
  have hproper : (Path.mk .relative back).Proper :=
    fun s hs => hp s (hback ▸ List.mem_append_right root.parts hs)
  have habs : (Path.ofString directory).isAbsolute = false := by
    rw [← Bool.not_eq_true, Path.isAbsolute_ofString]
    intro hstart
    exact absurd ((Path.startsWith_text_iff hproper).mp (startsWith_of_under h hstart)) nofun
  have hparts : (Path.ofString directory).parts <+: back := by
    have hcut := (cut_of_under h).filter Path.isPart
    rwa [Path.filter_cut_relative hproper] at hcut
  refine ⟨root.parts ++ (Path.ofString directory).parts, ?_, ?_⟩
  · rw [hback]
    exact (List.prefix_append_right_inj _).mpr hparts
  · rw [Path.join, habs, if_neg Bool.false_ne_true, hroot]

theorem isWithin_of_under (hp : p.Proper) (hkey : root.keyFrom p = some key)
    (h : under directory key = true) : p.isWithin (root.join (Path.ofString directory)) = true := by
  obtain ⟨front, hfront, hjoin⟩ := join_of_under hp hkey h
  exact (Path.isWithin_iff _ _).mpr (hjoin ▸ ⟨rfl, hfront⟩)

theorem nested_of_under {inner : String} (hp : p.Proper) (hkey : root.keyFrom p = some key)
    (h : under directory key = true) (h' : under inner key = true) :
    (root.join (Path.ofString inner)).isWithin (root.join (Path.ofString directory)) = true ∨
      (root.join (Path.ofString directory)).isWithin (root.join (Path.ofString inner)) = true := by
  obtain ⟨front, hfront, hjoin⟩ := join_of_under hp hkey h
  obtain ⟨front', hfront', hjoin'⟩ := join_of_under hp hkey h'
  rw [Path.isWithin_iff, Path.isWithin_iff, hjoin, hjoin']
  obtain hle | hle := List.prefix_or_prefix_of_prefix hfront hfront'
  · exact .inl ⟨rfl, hle⟩
  · exact .inr ⟨rfl, hle⟩

/-- The listing has no record of a key, and the key is not tracked. -/
structure Unnamed (o : Oracle) (key : String) : Prop where
  record : o.entries.lookup key = none
  tracked : o.tracked.contains key = false

theorem lookUp_eq (o : Oracle) (key : String) (present : Bool) : o.lookUp key present =
    (o.entries.lookup key).getD (if o.tracked.contains key then .clean
      else ((o.directories.find? fun d => under d.1 key).map Prod.snd).getD
        (if present then .untracked else .clean)) := by
  unfold lookUp
  cases o.entries.lookup key with
  | some s => rfl
  | none =>
    rw [Option.getD_none]
    cases o.directories.find? fun d => under d.1 key <;> rfl

theorem lookUp_cases (o : Oracle) (key : String) (present : Bool) :
    (∃ s, o.entries.lookup key = some s ∧ o.lookUp key present = s) ∨
      (o.entries.lookup key = none ∧ o.tracked.contains key = true ∧
        o.lookUp key present = .clean) ∨
      (o.Unnamed key ∧ ∃ d ∈ o.directories, under d.1 key = true ∧ o.lookUp key present = d.2) ∨
      (o.Unnamed key ∧ (∀ d ∈ o.directories, under d.1 key = false) ∧
        o.lookUp key present = if present then .untracked else .clean) := by
  unfold lookUp
  cases hrecord : o.entries.lookup key with
  | some s => exact .inl ⟨s, rfl, rfl⟩
  | none =>
    cases htracked : o.tracked.contains key with
    | true => exact .inr (.inl ⟨rfl, rfl, rfl⟩)
    | false =>
      cases hfind : o.directories.find? fun d => under d.1 key with
      | some d =>
        have hunder : under d.1 key = true := by simpa using List.find?_some hfind
        exact .inr (.inr (.inl ⟨⟨hrecord, htracked⟩, d, List.mem_of_find?_eq_some hfind, hunder,
          rfl⟩))
      | none =>
        refine .inr (.inr (.inr ⟨⟨hrecord, htracked⟩, fun d hd => ?_, rfl⟩))
        simpa using List.find?_eq_none.mp hfind d hd

theorem Unnamed.lookUp_eq_present {present : Bool} (h : o.Unnamed key)
    (hunder : ∀ d ∈ o.directories, under d.1 key = false) :
    o.lookUp key present = if present then .untracked else .clean := by
  have hfind : (o.directories.find? fun d => under d.1 key) = none :=
    List.find?_eq_none.mpr fun d hd => by simp [hunder d hd]
  rw [lookUp_eq, h.record, h.tracked, hfind]
  rfl

theorem status_of_key (hroot : o.root = some root) (hfailed : o.failed = false)
    (hkey : root.keyFrom p = some key) : o.status w p = o.lookUp key (w.lexists p.text) := by
  unfold status
  rw [hroot]
  dsimp only
  rw [hfailed, if_neg Bool.false_ne_true, hkey]

def Placed (o : Oracle) : Prop :=
  (∀ e ∈ o.entries, e.2 ≠ .notInRepo) ∧ ∀ d ∈ o.directories, d.2 ≠ .notInRepo

theorem Placed.lookUp_ne (h : o.Placed) (key : String) (present : Bool) :
    o.lookUp key present ≠ .notInRepo := by
  obtain ⟨s, hs, heq⟩ | ⟨-, -, heq⟩ | ⟨-, d, hd, -, heq⟩ | ⟨-, -, heq⟩ := o.lookUp_cases key present
  · obtain ⟨front, rest, hentries, -⟩ := List.lookup_eq_some_iff.mp hs
    exact heq ▸ h.1 (key, s) (by simp [hentries])
  · exact heq ▸ nofun
  · exact heq ▸ h.2 d hd
  · rw [heq]
    cases present <;> exact nofun

theorem status_eq_notInRepo_iff (hroot : o.root = some root) (hfailed : o.failed = false)
    (hplaced : o.Placed) : o.status w p = .notInRepo ↔ p.isWithin root = false := by
  rw [← Bool.not_eq_true, Path.isWithin_iff_key]
  cases hkey : root.keyFrom p with
  | none => simp [status, hroot, hfailed, hkey]
  | some key =>
    rw [status_of_key hroot hfailed hkey]
    simp [hplaced.lookUp_ne]

def Agrees (o : Oracle) (root : Path) : Prop :=
  ∀ d ∈ o.directories, ∀ e ∈ o.directories,
    (root.join (Path.ofString e.1)).isWithin (root.join (Path.ofString d.1)) = true → d.2 = e.2

theorem find?_map_perm {α β : Type} {f : α → β} {P : α → Bool} {xs ys : List α} (h : ys.Perm xs)
    (hsame : ∀ a ∈ xs, ∀ b ∈ xs, P a = true → P b = true → f a = f b) :
    (ys.find? P).map f = (xs.find? P).map f := by
  cases hx : xs.find? P with
  | none =>
    have hnone : ys.find? P = none :=
      List.find?_eq_none.mpr fun a ha => List.find?_eq_none.mp hx a (h.mem_iff.mp ha)
    rw [hnone]
  | some a =>
    have ha := List.mem_of_find?_eq_some hx
    cases hy : ys.find? P with
    | none => exact absurd (List.find?_some hx) (List.find?_eq_none.mp hy a (h.mem_iff.mpr ha))
    | some b =>
      have hb := h.mem_iff.mp (List.mem_of_find?_eq_some hy)
      exact congrArg some (hsame b hb a ha (List.find?_some hy) (List.find?_some hx))

theorem status_of_perm {ds : Ledger} (hroot : o.root = some root) (hfailed : o.failed = false)
    (hp : p.Proper) (hagrees : o.Agrees root) (hperm : ds.Perm o.directories) :
    ({ o with directories := ds } : Oracle).status w p = o.status w p := by
  cases hkey : root.keyFrom p with
  | none => simp [status, hroot, hfailed, hkey]
  | some key =>
    have hroot' : ({ o with directories := ds } : Oracle).root = some root := hroot
    have hsame : ∀ d ∈ o.directories, ∀ e ∈ o.directories, under d.1 key = true →
        under e.1 key = true → d.2 = e.2 := by
      intro d hd e he hunder hunder'
      obtain hnest | hnest := nested_of_under hp hkey hunder hunder'
      · exact hagrees d hd e he hnest
      · exact (hagrees e he d hd hnest).symm
    rw [status_of_key hroot' hfailed hkey, status_of_key hroot hfailed hkey, lookUp_eq, lookUp_eq,
      find?_map_perm hperm hsame]

/-- The grounds on which a path may be taken as not dirty. -/
inductive Vouched (o : Oracle) (root p : Path) (key : String) : Prop where
  | record {s : Status} : o.entries.lookup key = some s → s.isDirty = false → Vouched o root p key
  | tracked : o.entries.lookup key = none → o.tracked.contains key = true → Vouched o root p key
  | directory {d : String × Status} : o.Unnamed key → d ∈ o.directories → d.2.isDirty = false →
      p.isWithin (root.join (Path.ofString d.1)) = true → Vouched o root p key

/-- What the status of a path is to say: that it is outside just if it is, that there is nothing to
lose only on grounds, and the same in whatever order the directories come. -/
structure Evident (o : Oracle) (w : World) (root p : Path) : Prop where
  outside : o.status w p = .notInRepo ↔ p.isWithin root = false
  evidence : p.isWithin root = true → Rooted w.tree.Occupied p →
    (o.status w p).isDirty = false → ∃ key, root.keyFrom p = some key ∧ o.Vouched root p key
  order : o.Agrees root → ∀ ds, ds.Perm o.directories →
    ({ o with directories := ds } : Oracle).status w p = o.status w p

/-- Something lies at a path in the root, of which the listing says nothing and which no directory
vouches for, and the system does not come to it. -/
structure Overlooked (o : Oracle) (w : World) (root p : Path) : Prop where
  present : Rooted w.tree.Occupied p
  unseen : ¬(w.tree.Open p.parts ∧ Fits p.parts)
  unlisted : ∃ key, root.keyFrom p = some key ∧ o.Unnamed key ∧
    ∀ d ∈ o.directories, under d.1 key = false
  unvouched : ∀ d ∈ o.directories, p.isWithin (root.join (Path.ofString d.1)) = true →
    d.2.isDirty = true

theorem lexists_iff (h : Rooted w.tree.Occupied p) :
    w.lexists p.text = true ↔ w.tree.Open p.parts ∧ Fits p.parts := by
  obtain ⟨root, parts⟩ := p
  obtain ⟨rfl, hocc⟩ := h
  have hloc (m : Location) := locate_keep_iff (m := m) (PartOf.refl w.tree) hocc
  unfold lexists
  cases hlstat : w.lstat (Path.mk .single parts).text with
  | ok e =>
    obtain ⟨m, hm, -⟩ := entryAt_eq_ok.mp hlstat
    simp [((hloc m).mp hm).2.2]
  | error f =>
    refine ⟨nofun, fun hway => ?_⟩
    obtain ⟨e, he⟩ := hocc
    rw [lstat_of_open hway.1 he hway.2] at hlstat
    exact absurd hlstat nofun

/-- Only what is overlooked is taken as not dirty without any grounds. -/
theorem evident_iff (hroot : o.root = some root) (hfailed : o.failed = false) (hplaced : o.Placed)
    (hp : p.Proper) : o.Evident w root p ↔ ¬o.Overlooked w root p := by
  constructor
  · rintro h ⟨hpresent, hunseen, ⟨key, hkey, hunnamed, hunder⟩, hdirty⟩
    have habsent : w.lexists p.text = false := by
      rw [← Bool.not_eq_true, lexists_iff hpresent]
      exact hunseen
    have hclean : o.status w p = .clean := by
      rw [status_of_key hroot hfailed hkey, habsent, hunnamed.lookUp_eq_present hunder]
      rfl
    have hwithin : p.isWithin root = true := Path.isWithin_iff_key.mpr ⟨key, hkey⟩
    obtain ⟨key', hkey', hvouched⟩ := h.evidence hwithin hpresent (hclean ▸ rfl)
    obtain rfl := Option.some.inj (hkey.symm.trans hkey')
    cases hvouched with
    | record hs => exact absurd (hunnamed.record.symm.trans hs) nofun
    | tracked _ htracked => exact absurd (hunnamed.tracked.symm.trans htracked) nofun
    | directory _ hd hclean hheld => exact absurd ((hdirty _ hd hheld).symm.trans hclean) nofun
  · intro h
    refine ⟨status_eq_notInRepo_iff hroot hfailed hplaced, fun hwithin hpresent hclean => ?_,
      fun hagrees ds hperm => status_of_perm hroot hfailed hp hagrees hperm⟩
    obtain ⟨key, hkey⟩ := Path.isWithin_iff_key.mp hwithin
    refine ⟨key, hkey, ?_⟩
    rw [status_of_key hroot hfailed hkey] at hclean
    obtain ⟨s, hs, heq⟩ | ⟨hnone, htracked, -⟩ | ⟨hunnamed, d, hd, hunder, heq⟩ |
      ⟨hunnamed, hunder, heq⟩ := o.lookUp_cases key (w.lexists p.text)
    · exact .record hs (heq ▸ hclean)
    · exact .tracked hnone htracked
    · exact .directory hunnamed hd (heq ▸ hclean) (isWithin_of_under hp hkey hunder)
    · have hunseen : ¬(w.tree.Open p.parts ∧ Fits p.parts) := by
        intro hway
        rw [heq, (lexists_iff hpresent).mpr hway] at hclean
        exact absurd hclean nofun
      -- were there no grounds, every directory that holds the path would be dirty
      refine Classical.byContradiction fun hnone =>
        h ⟨hpresent, hunseen, ⟨key, hkey, hunnamed, hunder⟩, fun d hd hheld => ?_⟩
      cases hdirty : d.2.isDirty with
      | true => rfl
      | false =>
        have hvouched : o.Vouched root p key := .directory hunnamed hd hdirty hheld
        exact absurd hvouched hnone

def buildOracle : Oracle where
  root := some ⟨.single, ["p"]⟩
  entries := []
  directories := [("build", .ignored)]
  tracked := []
  failed := false

def lockedWorld : World where
  tree := ((FileTree.empty.put ["p", "build", "a"] (.file ByteArray.empty .nothing)).put ["p", "x"]
    (.dir ⟨false, false, true⟩)).put ["p", "x", "f"] (.file ByteArray.empty .nothing)
  cwd := "/p"
  env := []
  users := []
  ownHome := none
  git := none
  trashError := none

theorem placed_build : buildOracle.Placed :=
  ⟨by decide, by decide⟩

theorem evident_build : buildOracle.Placed ∧
    (Path.mk .single ["p", "build", "a"]).Proper ∧
    buildOracle.Evident lockedWorld ⟨.single, ["p"]⟩ ⟨.single, ["p", "build", "a"]⟩ ∧
    Rooted lockedWorld.tree.Occupied ⟨.single, ["p", "build", "a"]⟩ ∧
    buildOracle.status lockedWorld ⟨.single, ["p", "build", "a"]⟩ = .ignored := by
  have hfind : lockedWorld.tree.find? ["p", "build", "a"] =
      some (.file ByteArray.empty .nothing) := by decide +kernel
  have hproper := proper_of_find? hfind
  refine ⟨placed_build, hproper, ?_, ⟨rfl, _, hfind⟩, by decide +kernel⟩
  refine (evident_iff rfl rfl placed_build hproper).mpr ?_
  rintro ⟨-, -, ⟨key, hkey, -, hunder⟩, -⟩
  have hbuild : (Path.mk .single ["p"]).keyFrom ⟨.single, ["p", "build", "a"]⟩ =
      some "build/a" := by
    decide
  obtain rfl := Option.some.inj (hbuild.symm.trans hkey)
  exact absurd (hunder _ List.mem_cons_self) (by decide)

/-- A file that the listing does not know is clean if the system does not come to it. -/
theorem not_evident_locked : buildOracle.Placed ∧
    Rooted lockedWorld.tree.Occupied ⟨.single, ["p", "x", "f"]⟩ ∧
    buildOracle.status lockedWorld ⟨.single, ["p", "x", "f"]⟩ = .clean ∧
    ¬buildOracle.Evident lockedWorld ⟨.single, ["p"]⟩ ⟨.single, ["p", "x", "f"]⟩ := by
  have hfind : lockedWorld.tree.find? ["p", "x", "f"] =
      some (.file ByteArray.empty .nothing) := by decide +kernel
  have hpresent : Rooted lockedWorld.tree.Occupied ⟨.single, ["p", "x", "f"]⟩ := ⟨rfl, _, hfind⟩
  have hclean : buildOracle.status lockedWorld ⟨.single, ["p", "x", "f"]⟩ = .clean := by
    decide +kernel
  refine ⟨placed_build, hpresent, hclean, fun h => ?_⟩
  obtain ⟨key, -, hvouched⟩ := h.evidence (by decide) hpresent (hclean ▸ rfl)
  cases hvouched with
  | record hs => exact absurd hs nofun
  | tracked _ htracked => exact absurd htracked nofun
  | directory _ hd _ hheld =>
    rw [List.mem_singleton.mp hd] at hheld
    exact absurd hheld (by decide)

end Git.Oracle
end DeletionGuard
