import DeletionGuard.Proofs.Run.Leaves

/-!
The listing of leaves is exact. Directories that are still to be listed never lie in one another, so
no directory is listed twice and the bound on their number is never met: a listing fails only where
the system refuses to list a directory.
-/
namespace DeletionGuard.World
open FileTree
variable {w : World} {n : Nat} {p q d : Path} {pending leaves : List Path} {m : Location}
  {e : Entry} {u : Unlistable}

theorem of_mem_subdirectories (hq : q ∈ subdirectories p (w.tree.children p.parts)) :
    ∃ s, q = p.child s ∧ w.tree.isDir q.parts = true := by
  rw [subdirectories, List.mem_reverse] at hq
  obtain ⟨⟨s, e⟩, he, rfl⟩ := List.mem_map.mp hq
  obtain ⟨hmem, hdir⟩ := List.mem_filter.mp he
  refine ⟨s, rfl, ?_⟩
  rw [FileTree.isDir, Path.parts_child, mem_children.mp hmem, Option.any_some]
  exact hdir

theorem of_mem_leavesIn (hq : q ∈ leavesIn p (w.tree.children p.parts)) :
    ∃ s e, q = p.child s ∧ w.tree.find? q.parts = some e ∧ e.isDir = false := by
  obtain ⟨⟨s, e⟩, he, rfl⟩ := List.mem_map.mp hq
  obtain ⟨hmem, hfile⟩ := List.mem_filter.mp he
  exact ⟨s, e, rfl, mem_children.mp hmem, by simpa using hfile⟩

theorem not_child_below (p : Path) (s : String) : ¬(p.child s).parts <+: p.parts := by
  intro hbelow
  have hlength := hbelow.length_le
  rw [Path.parts_child, List.length_append, List.length_singleton] at hlength
  omega

def Apart (p q : Path) : Prop :=
  ¬p.parts <+: q.parts ∧ ¬q.parts <+: p.parts

theorem Apart.child (h : Apart p q) (s : String) : Apart (p.child s) q := by
  refine ⟨fun hbelow => h.1 ((List.prefix_append _ _).trans hbelow), fun hbelow => ?_⟩
  obtain heq | hbelow := List.prefix_concat_iff.mp hbelow
  · exact h.1 ⟨[s], heq.symm⟩
  · exact h.2 hbelow

theorem apart_children {r s : String} (hne : r ≠ s) : Apart (p.child r) (p.child s) := by
  have hnot {r s : String} (hne : r ≠ s) : ¬(p.child r).parts <+: (p.child s).parts := by
    intro hbelow
    have heq := hbelow.eq_of_length (by simp)
    exact hne (List.append_singleton_inj.mp heq).2
  exact ⟨hnot hne, hnot hne.symm⟩

def Folder (w : World) (p : Path) : Prop :=
  Rooted (fun l => w.tree.isDir l = true) p

theorem Folder.solid (h : w.Folder p) : Rooted w.tree.Solid p :=
  ⟨h.1, solid_of_isDir h.2⟩

/-- Directories that are still to be listed: each at its true place, and none in another. -/
structure Frontier (w : World) (pending : List Path) : Prop where
  folder : ∀ p ∈ pending, w.Folder p
  apart : pending.Pairwise Apart

theorem pairwise_subdirectories (p : Path) :
    (subdirectories p (w.tree.children p.parts)).Pairwise Apart := by
  have hnames := List.pairwise_map.mp (nodup_children w.tree p.parts)
  rw [subdirectories, List.pairwise_reverse, List.pairwise_map]
  exact (hnames.filter _).imp fun hne => apart_children hne.symm

theorem exists_above_of_step
    (hp : p ∈ subdirectories d (w.tree.children d.parts) ++ pending) :
    ∃ q ∈ d :: pending, q.parts <+: p.parts := by
  obtain hp | hp := List.mem_append.mp hp
  · obtain ⟨s, rfl, -⟩ := of_mem_subdirectories hp
    exact ⟨d, List.mem_cons_self, List.prefix_append _ _⟩
  · exact ⟨p, List.mem_cons_of_mem d hp, List.prefix_refl _⟩

theorem Frontier.step (h : Frontier w (d :: pending)) :
    Frontier w (subdirectories d (w.tree.children d.parts) ++ pending) := by
  have hd := h.folder d List.mem_cons_self
  obtain ⟨hapart, hrest⟩ := List.pairwise_cons.mp h.apart
  refine ⟨fun q hq => ?_, List.pairwise_append.mpr
    ⟨pairwise_subdirectories d, hrest, fun q hq r hr => ?_⟩⟩
  · obtain hq | hq := List.mem_append.mp hq
    · obtain ⟨s, rfl, hdir⟩ := of_mem_subdirectories hq
      exact ⟨hd.1, hdir⟩
    · exact h.folder q (List.mem_cons_of_mem d hq)
  · obtain ⟨s, rfl, -⟩ := of_mem_subdirectories hq
    exact (hapart r hr).child s

def ahead (t : FileTree) (pending : List Path) : List Location :=
  ([] :: t.entries.map Prod.fst).filter fun l => pending.any fun p => below p.parts l

theorem mem_ahead {t : FileTree} {l : Location} :
    l ∈ ahead t pending ↔ t.Occupied l ∧ ∃ p ∈ pending, p.parts <+: l := by
  have hplace : l ∈ [] :: t.entries.map Prod.fst ↔ t.Occupied l := by
    by_cases hnil : l = []
    · simp [hnil, FileTree.Occupied]
    · simp [hnil, FileTree.Occupied, find?_eq_some_iff]
  simp [ahead, ← hplace, below_iff]

theorem length_ahead_le (t : FileTree) (pending : List Path) :
    (ahead t pending).length ≤ t.entries.length + 1 := by
  have hle := List.length_filter_le (fun l => pending.any fun p => below p.parts l)
    ([] :: t.entries.map Prod.fst)
  simpa [ahead] using hle

theorem length_ahead_lt (h : Frontier w (d :: pending)) :
    (ahead w.tree (subdirectories d (w.tree.children d.parts) ++ pending)).length <
      (ahead w.tree (d :: pending)).length := by
  obtain ⟨hapart, -⟩ := List.pairwise_cons.mp h.apart
  have hstays (l : Location)
      (hl : ∃ p ∈ subdirectories d (w.tree.children d.parts) ++ pending, p.parts <+: l) :
      ∃ p ∈ d :: pending, p.parts <+: l := by
    obtain ⟨p, hp, hbelow⟩ := hl
    obtain ⟨q, hq, habove⟩ := exists_above_of_step hp
    exact ⟨q, hq, habove.trans hbelow⟩
  have hbehind : ¬∃ p ∈ subdirectories d (w.tree.children d.parts) ++ pending,
      p.parts <+: d.parts := by
    rintro ⟨p, hp, hbelow⟩
    obtain hp | hp := List.mem_append.mp hp
    · obtain ⟨s, rfl, -⟩ := of_mem_subdirectories hp
      exact not_child_below d s hbelow
    · exact (hapart p hp).2 hbelow
  have hahead : d.parts ∈ ahead w.tree (d :: pending) := by
    obtain ⟨deny, hdeny⟩ := isDir_iff.mp (h.folder d List.mem_cons_self).2
    exact mem_ahead.mpr ⟨⟨_, hdeny⟩, d, List.mem_cons_self, List.prefix_refl _⟩
  have hfilter : ahead w.tree (subdirectories d (w.tree.children d.parts) ++ pending) =
      (ahead w.tree (d :: pending)).filter fun l =>
        (subdirectories d (w.tree.children d.parts) ++ pending).any fun p => below p.parts l := by
    rw [ahead, ahead, List.filter_filter]
    refine List.filter_congr fun l _ => ?_
    rw [Bool.eq_iff_iff, Bool.and_eq_true]
    simp only [List.any_eq_true, below_iff]
    exact ⟨fun hl => ⟨hl, hstays l hl⟩, fun hl => hl.1⟩
  rw [hfilter, List.length_filter_lt_length_iff_exists]
  refine ⟨d.parts, hahead, ?_⟩
  simpa only [List.any_eq_true, below_iff] using hbehind

theorem gather_cons_ok (hd : w.Folder d)
    (h : w.gather (n + 1) (d :: pending) = .ok leaves) :
    ∃ others, w.list d.text = .ok (w.tree.children d.parts) ∧
      w.gather n (subdirectories d (w.tree.children d.parts) ++ pending) = .ok others ∧
      leaves = leavesIn d (w.tree.children d.parts) ++ others := by
  rw [gather] at h
  cases hlist : w.list d.text with
  | error f =>
    rw [hlist] at h
    cases h
  | ok entries =>
    rw [hlist] at h
    obtain ⟨others, hothers, rfl⟩ := map_eq_ok.mp h
    obtain ⟨-, rfl⟩ := list_eq_ok (PartOf.refl _) hd.solid hlist
    exact ⟨others, rfl, hothers, rfl⟩

theorem gather_cons_error (hd : w.Folder d)
    (h : w.gather (n + 1) (d :: pending) = .error u) :
    (w.list d.text = .error u.failure ∧ u.directory = d) ∨
      w.gather n (subdirectories d (w.tree.children d.parts) ++ pending) = .error u := by
  rw [gather] at h
  cases hlist : w.list d.text with
  | error f =>
    rw [hlist] at h
    obtain rfl := Except.error.inj h
    exact .inl ⟨rfl, rfl⟩
  | ok entries =>
    obtain ⟨-, rfl⟩ := list_eq_ok (PartOf.refl _) hd.solid hlist
    rw [hlist] at h
    refine .inr ?_
    simp only at h
    generalize hrest : w.gather n (subdirectories d (w.tree.children d.parts) ++ pending) = r at h ⊢
    cases r with
    | error u' => exact congrArg Except.error (Except.error.inj h)
    | ok others => cases h

/-- A listing that succeeds goes from directory to directory. -/
theorem gather_induction {motive : List Path → List Path → Prop} (hdone : motive [] [])
    (hlisted : ∀ n d pending others, Frontier w (d :: pending) →
      w.list d.text = .ok (w.tree.children d.parts) →
      w.gather n (subdirectories d (w.tree.children d.parts) ++ pending) = .ok others →
      motive (subdirectories d (w.tree.children d.parts) ++ pending) others →
      motive (d :: pending) (leavesIn d (w.tree.children d.parts) ++ others))
    (hfrontier : Frontier w pending) (h : w.gather n pending = .ok leaves) :
    motive pending leaves := by
  induction n generalizing pending leaves with
  | zero =>
    cases pending with
    | nil => exact Except.ok.inj h ▸ hdone
    | cons d pending => exact absurd h nofun
  | succ n ih =>
    cases pending with
    | nil => exact Except.ok.inj h ▸ hdone
    | cons d pending =>
      obtain ⟨others, hlist, hothers, rfl⟩ :=
        gather_cons_ok (hfrontier.folder d List.mem_cons_self) h
      exact hlisted n d pending others hfrontier hlist hothers (ih hfrontier.step hothers)

theorem gather_sound (hfrontier : Frontier w pending) (h : w.gather n pending = .ok leaves)
    (hq : q ∈ leaves) : ∃ p ∈ pending, p.parts <+: q.parts ∧ q.root = .single ∧
      ∃ e, w.tree.find? q.parts = some e ∧ e.isDir = false := by
  refine gather_induction (motive := fun pending leaves => q ∈ leaves → ∃ p ∈ pending,
    p.parts <+: q.parts ∧ q.root = .single ∧ ∃ e, w.tree.find? q.parts = some e ∧ e.isDir = false)
    (fun hq => absurd hq List.not_mem_nil) (fun n d pending others hfrontier _ _ ih hq => ?_)
    hfrontier h hq
  obtain hq | hq := List.mem_append.mp hq
  · obtain ⟨s, e, rfl, hfind, hfile⟩ := of_mem_leavesIn hq
    have hd := hfrontier.folder d List.mem_cons_self
    exact ⟨d, List.mem_cons_self, List.prefix_append _ _, hd.1, e, hfind, hfile⟩
  · obtain ⟨p, hp, hbelow, hleaf⟩ := ih hq
    obtain ⟨r, hr, habove⟩ := exists_above_of_step hp
    exact ⟨r, hr, habove.trans hbelow, hleaf⟩

theorem gather_listed (hfrontier : Frontier w pending) (h : w.gather n pending = .ok leaves)
    (hp : p ∈ pending) (hbelow : p.parts <+: m) (hdir : w.tree.isDir m = true) :
    w.list (Path.mk .single m).text = .ok (w.tree.children m) := by
  refine gather_induction (motive := fun pending _ => ∀ p ∈ pending, p.parts <+: m →
    w.list (Path.mk .single m).text = .ok (w.tree.children m)) nofun
    (fun n d pending others hfrontier hlist _ ih p hp hbelow => ?_) hfrontier h p hp hbelow
  obtain rfl | hp := List.mem_cons.mp hp
  · obtain ⟨k, rfl⟩ := hbelow
    cases k with
    | nil =>
      rw [List.append_nil, ← (hfrontier.folder p List.mem_cons_self).1]
      exact hlist
    | cons s k =>
      have hchild : (p.child s).parts <+: p.parts ++ s :: k := ⟨k, by simp⟩
      have hsub := mem_subdirectories (isDir_above hchild hdir)
      exact ih _ (List.mem_append_left _ hsub) hchild
  · exact ih p (List.mem_append_right _ hp) hbelow

theorem gather_unlistable (hfrontier : Frontier w pending)
    (hn : (ahead w.tree pending).length ≤ n) (h : w.gather n pending = .error u) :
    ∃ p ∈ pending, p.parts <+: u.directory.parts ∧ w.Folder u.directory ∧
      w.list u.directory.text = .error u.failure := by
  induction n generalizing pending with
  | zero =>
    cases pending with
    | nil => exact absurd h nofun
    | cons d pending =>
      have hlt := length_ahead_lt hfrontier
      omega
  | succ n ih =>
    cases pending with
    | nil => exact absurd h nofun
    | cons d pending =>
      have hd := hfrontier.folder d List.mem_cons_self
      obtain ⟨hlist, hdirectory⟩ | hrest := gather_cons_error hd h
      · rw [hdirectory]
        exact ⟨d, List.mem_cons_self, List.prefix_refl _, hd, hlist⟩
      · have hlt := length_ahead_lt hfrontier
        obtain ⟨p, hp, hbelow, hfails⟩ := ih hfrontier.step (by omega) hrest
        obtain ⟨r, hr, habove⟩ := exists_above_of_step hp
        exact ⟨r, hr, habove.trans hbelow, hfails⟩

theorem frontier_singleton (hp : w.Folder p) : Frontier w [p] where
  folder q hq := by rwa [List.mem_singleton.mp hq]
  apart := List.pairwise_singleton Apart p

/-- A listing below a directory gives just what lies there and is no directory itself. -/
theorem mem_leavesBelow (hp : w.Folder p) (h : w.leavesBelow p = .ok leaves) :
    q ∈ leaves ↔ p.parts <+: q.parts ∧ q.root = .single ∧
      ∃ e, w.tree.find? q.parts = some e ∧ e.isDir = false := by
  constructor
  · intro hq
    obtain ⟨r, hr, hleaf⟩ := gather_sound (frontier_singleton hp) h hq
    rwa [List.mem_singleton.mp hr] at hleaf
  · rintro ⟨hbelow, hroot, e, hfind, hfile⟩
    have hleaf := leavesBelow_complete hp.solid h hbelow hfind hfile
    rwa [← hroot] at hleaf

theorem leavesBelow_error (hp : w.Folder p) (h : w.leavesBelow p = .error u) :
    p.parts <+: u.directory.parts ∧ w.Folder u.directory ∧
      w.list u.directory.text = .error u.failure := by
  obtain ⟨q, hq, hfails⟩ :=
    gather_unlistable (frontier_singleton hp) (length_ahead_le w.tree [p]) h
  rwa [List.mem_singleton.mp hq] at hfails

theorem leavesBelow_ok_iff (hp : w.Folder p) :
    (∃ leaves, w.leavesBelow p = .ok leaves) ↔ ∀ m, p.parts <+: m → w.tree.isDir m = true →
      ∃ entries, w.list (Path.mk .single m).text = .ok entries := by
  constructor
  · rintro ⟨leaves, h⟩ m hbelow hdir
    exact ⟨_, gather_listed (frontier_singleton hp) h List.mem_cons_self hbelow hdir⟩
  · intro hlisted
    cases h : w.leavesBelow p with
    | ok leaves => exact ⟨leaves, rfl⟩
    | error u =>
      obtain ⟨hbelow, hfolder, hfails⟩ := leavesBelow_error hp h
      obtain ⟨entries, hentries⟩ := hlisted _ hbelow hfolder.2
      rw [← hfolder.1, hfails] at hentries
      exact absurd hentries nofun

end DeletionGuard.World
