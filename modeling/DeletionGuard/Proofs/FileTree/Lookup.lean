import DeletionGuard.FileTree.Basic

/-!
What a tree holds at its locations. Above every entry there are directories, so a location at which
something is found is the true place of that entry: no link lies on the way to it. A tree from which
entries were taken away is a part of the former one.
-/
namespace DeletionGuard.FileTree
variable {t t' t'' : FileTree} {l m : Location} {n : String} {e : Entry}

@[simp] theorem find?_nil (t : FileTree) : t.find? [] = some (.dir t.top) := by
  simp [find?]

theorem find?_eq_some_iff (hl : l ≠ []) : t.find? l = some e ↔ (l, e) ∈ t.entries := by
  constructor
  · exact mem_of_find? hl
  · intro h
    rw [find?, if_neg hl, List.lookup_eq_some_iff]
    obtain ⟨p, q, hpq⟩ := List.append_of_mem h
    refine ⟨p, q, hpq, ?_⟩
    intro x hx
    have hd := t.sound.distinct
    rw [hpq, List.map_append, List.nodup_append] at hd
    have hne := hd.2.2 x.1 (List.mem_map_of_mem hx) l (by simp)
    simpa using fun he : l = x.1 => hne he.symm

theorem isDir_iff : t.isDir l = true ↔ ∃ d, t.find? l = some (.dir d) := by
  unfold isDir
  cases h : t.find? l with
  | none => simp
  | some e => cases e <;> simp [Entry.isDir]

@[simp] theorem isDir_nil (t : FileTree) : t.isDir [] = true := by
  rw [isDir_iff]
  exact ⟨t.top, find?_nil t⟩

theorem isLink_of_isDir (h : e.isDir = true) : e.isLink = false := by
  cases e with
  | dir deny => rfl
  | file | link | fifo => exact absurd h nofun

theorem ne_nil_of_find? (h : t.find? l = some e) (hfile : e.isDir = false) : l ≠ [] := by
  rintro rfl
  rw [find?_nil] at h
  rw [← Option.some.inj h] at hfile
  cases hfile

theorem isDir_dropLast (h : t.find? l = some e) : t.isDir l.dropLast = true := by
  by_cases hl : l.dropLast = []
  · rw [hl]
    exact isDir_nil t
  · have hne : l ≠ [] := by
      rintro rfl
      exact hl rfl
    obtain ⟨d, hd⟩ := t.sound.nested _ (mem_of_find? hne h) hl
    exact isDir_iff.mpr ⟨d, (find?_eq_some_iff hl).mpr hd⟩

theorem isDir_of_find?_append (h : t.find? (l ++ [n]) = some e) : t.isDir l = true := by
  simpa using isDir_dropLast h

theorem isName_of_find? (h : t.find? l = some e) : ∀ n ∈ l, IsName n := by
  by_cases hl : l = []
  · simp [hl]
  · exact (t.sound.named _ (mem_of_find? hl h)).2

def Occupied (t : FileTree) (l : Location) : Prop :=
  ∃ e, t.find? l = some e

theorem occupied_of_isDir (h : t.isDir l = true) : t.Occupied l := by
  obtain ⟨deny, hdeny⟩ := isDir_iff.mp h
  exact ⟨_, hdeny⟩

theorem isDir_of_append {k : Location} (hk : k ≠ []) (h : t.find? (l ++ k) = some e) :
    t.isDir l = true := by
  induction k generalizing l with
  | nil => exact absurd rfl hk
  | cons n k ih =>
    rw [List.append_cons] at h
    by_cases hk' : k = []
    · rw [hk', List.append_nil] at h
      exact isDir_of_find?_append h
    · obtain ⟨d, hd⟩ := isDir_iff.mp (ih hk' h)
      exact isDir_of_find?_append hd

theorem isDir_of_below (hlm : l <+: m) (hne : l ≠ m) (h : t.find? m = some e) :
    t.isDir l = true := by
  obtain ⟨k, rfl⟩ := hlm
  exact isDir_of_append (by rintro rfl; simp at hne) h

theorem isDir_above (hlm : l <+: m) (h : t.isDir m = true) : t.isDir l = true := by
  by_cases hne : l = m
  · rwa [hne]
  · obtain ⟨d, hd⟩ := isDir_iff.mp h
    exact isDir_of_below hlm hne hd

theorem eq_of_below (hlm : l <+: m) (h : t.find? m = some e) (hl : t.isDir l = false) : l = m := by
  by_cases hne : l = m
  · exact hne
  · rw [isDir_of_below hlm hne h] at hl
    exact absurd hl (by decide)

theorem location_of_listed {x : Location × Entry} {c : String × Entry}
    (h : (if x.1.dropLast = l then x.1.getLast?.map fun n => (n, x.2) else none) = some c) :
    x.1 = l ++ [c.1] ∧ x.2 = c.2 := by
  split at h
  · rename_i hdrop
    obtain ⟨n, hn, rfl⟩ := Option.map_eq_some_iff.mp h
    obtain ⟨front, hfront⟩ := List.getLast?_eq_some_iff.mp hn
    exact ⟨by rw [← hdrop, hfront, List.dropLast_concat], rfl⟩
  · exact absurd h nofun

theorem mem_children : (n, e) ∈ t.children l ↔ t.find? (l ++ [n]) = some e := by
  rw [find?_eq_some_iff (by simp), children, List.mem_filterMap]
  constructor
  · rintro ⟨x, hx, hsome⟩
    obtain ⟨hlocation, hentry⟩ := location_of_listed hsome
    exact (Prod.ext hlocation hentry : x = (l ++ [n], e)) ▸ hx
  · intro h
    exact ⟨_, h, by simp⟩

theorem nodup_children (t : FileTree) (l : Location) : ((t.children l).map Prod.fst).Nodup := by
  have hdistinct := List.pairwise_map.mp t.sound.distinct
  rw [List.Nodup, List.pairwise_map, children, List.pairwise_filterMap]
  refine hdistinct.imp fun {x y} hne a ha b hb heq => hne ?_
  rw [(location_of_listed ha).1, (location_of_listed hb).1, heq]

theorem find?_erase (t : FileTree) (l m : Location) :
    (t.erase l).find? m = if m ≠ [] ∧ l <+: m then none else t.find? m := by
  by_cases hm : m = []
  · simp [hm, erase]
  · cases hf : (t.erase l).find? m with
    | none =>
      split
      · rfl
      · rename_i hl
        cases ht : t.find? m with
        | none => rfl
        | some e =>
          have hmem : (m, e) ∈ (t.erase l).entries := by
            have hb : below l m = false := by
              rw [← Bool.not_eq_true, below_iff]
              exact fun h => hl ⟨hm, h⟩
            exact List.mem_filter.mpr ⟨mem_of_find? hm ht, by simp [hb]⟩
          rw [(find?_eq_some_iff hm).mpr hmem] at hf
          exact absurd hf (Option.some_ne_none e)
    | some e =>
      obtain ⟨hmem, hb⟩ := List.mem_filter.mp (mem_of_find? hm hf)
      have hl : ¬l <+: m := by
        rw [← below_iff]
        simpa using hb
      rw [if_neg fun h => hl h.2]
      exact ((find?_eq_some_iff hm).mpr hmem).symm

theorem find?_graft_self (hl : l ≠ []) (hnames : ∀ n ∈ l, IsName n)
    (hdir : t.isDir l.dropLast = true) (e : Entry) : (t.graft l e).find? l = some e := by
  rw [graft, dif_pos ⟨hl, hnames, hdir⟩, find?_eq_some_iff hl]
  simp

theorem find?_graft_of_not_below (h : ¬l <+: m) (e : Entry) :
    (t.graft l e).find? m = t.find? m := by
  unfold graft
  split
  · have hne : m ≠ l := by
      rintro rfl
      exact h (List.prefix_refl m)
    have hnone : List.lookup m [(l, e)] = none := by
      rw [List.lookup_cons, beq_eq_false_iff_ne.mpr hne]
      rfl
    have herase : (t.erase l).find? m = t.find? m := by
      rw [find?_erase, if_neg fun hm => h hm.2]
    rw [← herase, find?, find?, List.lookup_append, hnone, Option.or_none]
    rfl
  · rfl

/-- Every entry of one tree is in another, unchanged and at the same place. -/
def PartOf (t' t : FileTree) : Prop :=
  ∀ l e, t'.find? l = some e → t.find? l = some e

namespace PartOf

theorem refl (t : FileTree) : t.PartOf t :=
  fun _ _ h => h

theorem trans (h : t''.PartOf t') (h' : t'.PartOf t) : t''.PartOf t :=
  fun l e hl => h' l e (h l e hl)

theorem isDir (h : t'.PartOf t) (hdir : t'.isDir l = true) : t.isDir l = true := by
  obtain ⟨deny, hdeny⟩ := isDir_iff.mp hdir
  exact isDir_iff.mpr ⟨deny, h _ _ hdeny⟩

theorem erase (t : FileTree) (l : Location) : (t.erase l).PartOf t := by
  intro m e hm
  rw [find?_erase] at hm
  split at hm
  · exact absurd hm.symm (Option.some_ne_none e)
  · exact hm

end PartOf
end DeletionGuard.FileTree
