import DeletionGuard.FileTree.Entry

/-!
A file tree: every entry with its location, in order of creation. Each location occurs once, is
made of proper names, and has a directory above it; no operation can break this.
-/
namespace DeletionGuard

/-- The names from the top of the tree down to an entry; the top itself is `[]`. -/
abbrev Location := List String

def IsName (s : String) : Prop :=
  s ≠ "" ∧ s ≠ "." ∧ s ≠ ".." ∧ '/' ∉ s.toList

instance (s : String) : Decidable (IsName s) :=
  inferInstanceAs (Decidable (_ ∧ _ ∧ _ ∧ _))

structure Sound (entries : List (Location × Entry)) : Prop where
  distinct : (entries.map Prod.fst).Nodup
  named : ∀ e ∈ entries, e.1 ≠ [] ∧ ∀ n ∈ e.1, IsName n
  nested : ∀ e ∈ entries, e.1.dropLast ≠ [] → ∃ d, (e.1.dropLast, Entry.dir d) ∈ entries

/-- Whether a location is another or lies below it. -/
def below (l m : Location) : Bool :=
  l.isPrefixOf m

theorem below_iff (l m : Location) : below l m = true ↔ l <+: m :=
  List.isPrefixOf_iff_prefix

def adjustEntry (l : Location) (f : Entry → Entry) (e : Location × Entry) : Location × Entry :=
  if e.1 = l then (e.1, f e.2) else e

namespace Sound

theorem filter {es : List (Location × Entry)} (h : Sound es) (l : Location) :
    Sound (es.filter fun e => !below l e.1) where
  distinct := h.distinct.sublist (List.filter_sublist.map _)
  named e he := h.named e (List.mem_filter.mp he).1
  nested e he hne := by
    obtain ⟨hm, hb⟩ := List.mem_filter.mp he
    obtain ⟨d, hd⟩ := h.nested e hm hne
    refine ⟨d, List.mem_filter.mpr ⟨hd, ?_⟩⟩
    simp only [Bool.not_eq_eq_eq_not, Bool.not_true, ← Bool.not_eq_true, below_iff] at hb ⊢
    exact fun hp => hb (hp.trans (List.dropLast_prefix _))

theorem append {es : List (Location × Entry)} (h : Sound es) {l : Location} (e : Entry)
    (hl : l ≠ []) (hn : ∀ n ∈ l, IsName n) (hfresh : ∀ x ∈ es, x.1 ≠ l)
    (hup : l.dropLast ≠ [] → ∃ d, (l.dropLast, Entry.dir d) ∈ es) : Sound (es ++ [(l, e)]) where
  distinct := by
    rw [List.map_append, List.nodup_append]
    refine ⟨h.distinct, by simp, ?_⟩
    intro a ha b hb
    obtain ⟨x, hx, rfl⟩ := List.mem_map.mp ha
    simp only [List.map_cons, List.map_nil, List.mem_singleton] at hb
    exact hb ▸ hfresh x hx
  named x hx := by
    obtain hx | hx := List.mem_append.mp hx
    · exact h.named x hx
    · obtain rfl := List.mem_singleton.mp hx
      exact ⟨hl, hn⟩
  nested x hx hne := by
    obtain hx | hx := List.mem_append.mp hx
    · obtain ⟨d, hd⟩ := h.nested x hx hne
      exact ⟨d, List.mem_append_left _ hd⟩
    · obtain rfl := List.mem_singleton.mp hx
      obtain ⟨d, hd⟩ := hup hne
      exact ⟨d, List.mem_append_left _ hd⟩

theorem adjust {es : List (Location × Entry)} (h : Sound es) (l : Location)
    (f : Entry → Entry) (hf : ∀ d, ∃ d', f (.dir d) = .dir d') :
    Sound (es.map (adjustEntry l f)) where
  distinct := by
    have he : Prod.fst ∘ adjustEntry l f = (Prod.fst : Location × Entry → Location) := by
      funext e
      simp only [Function.comp, adjustEntry]
      split <;> rfl
    rw [List.map_map, he]
    exact h.distinct
  named e he := by
    obtain ⟨x, hx, rfl⟩ := List.mem_map.mp he
    have := h.named x hx
    unfold adjustEntry
    split <;> exact this
  nested e he hne := by
    obtain ⟨x, hx, rfl⟩ := List.mem_map.mp he
    have hfst : (adjustEntry l f x).1 = x.1 := by unfold adjustEntry; split <;> rfl
    rw [hfst] at hne ⊢
    obtain ⟨d, hd⟩ := h.nested x hx hne
    by_cases heq : x.1.dropLast = l
    · obtain ⟨d', hd'⟩ := hf d
      exact ⟨d', List.mem_map.mpr ⟨_, hd, by simp [adjustEntry, heq, hd']⟩⟩
    · exact ⟨d, List.mem_map.mpr ⟨_, hd, by simp [adjustEntry, heq]⟩⟩

end Sound

structure FileTree where
  /-- What the top directory refuses. -/
  top : Deny
  entries : List (Location × Entry)
  sound : Sound entries

namespace FileTree

def empty : FileTree where
  top := .nothing
  entries := []
  sound := ⟨List.nodup_nil, by simp, by simp⟩

def find? (t : FileTree) (l : Location) : Option Entry :=
  if l = [] then some (.dir t.top) else t.entries.lookup l

def isDir (t : FileTree) (l : Location) : Bool :=
  (t.find? l).any Entry.isDir

def children (t : FileTree) (l : Location) : List (String × Entry) :=
  t.entries.filterMap fun e =>
    if e.1.dropLast = l then e.1.getLast?.map fun n => (n, e.2) else none

theorem mem_of_find? {t : FileTree} {l : Location} {e : Entry} (hl : l ≠ [])
    (h : t.find? l = some e) : (l, e) ∈ t.entries := by
  rw [find?, if_neg hl] at h
  obtain ⟨p, q, hpq, _⟩ := List.lookup_eq_some_iff.mp h
  rw [hpq]
  simp

def erase (t : FileTree) (l : Location) : FileTree where
  top := t.top
  entries := t.entries.filter fun e => !below l e.1
  sound := t.sound.filter l

theorem graft_sound (t : FileTree) (l : Location) (e : Entry) (hl : l ≠ [])
    (hn : ∀ n ∈ l, IsName n) (hd : t.isDir l.dropLast = true) :
    Sound ((t.erase l).entries ++ [(l, e)]) := by
  refine (t.erase l).sound.append e hl hn ?_ ?_
  · intro x hx hxl
    have := (List.mem_filter.mp hx).2
    simp only [Bool.not_eq_eq_eq_not, Bool.not_true, ← Bool.not_eq_true, below_iff] at this
    exact this (hxl ▸ List.prefix_refl _)
  · intro hne
    unfold isDir at hd
    match hf : t.find? l.dropLast with
    | none => rw [hf] at hd; exact absurd hd (by simp)
    | some (.file ..) | some (.link _) | some (.fifo _) =>
      rw [hf] at hd; exact absurd hd (by simp [Entry.isDir])
    | some (.dir d) =>
      refine ⟨d, List.mem_filter.mpr ⟨mem_of_find? hne hf, ?_⟩⟩
      simp only [Bool.not_eq_eq_eq_not, Bool.not_true, ← Bool.not_eq_true, below_iff]
      intro hp
      have := hp.length_le
      simp only [List.length_dropLast] at this
      have := List.length_pos_iff.mpr hl
      omega

/-- The tree with a new last entry in place of whatever was at its location. There must be a
directory to hold it; otherwise nothing changes. -/
def graft (t : FileTree) (l : Location) (e : Entry) : FileTree :=
  if h : l ≠ [] ∧ (∀ n ∈ l, IsName n) ∧ t.isDir l.dropLast = true then
    { top := t.top
      entries := (t.erase l).entries ++ [(l, e)]
      sound := graft_sound t l e h.1 h.2.1 h.2.2 }
  else t

def setDeny (t : FileTree) (l : Location) (d : Deny) : FileTree where
  top := if l = [] then d else t.top
  entries := t.entries.map (adjustEntry l (Entry.withDeny d))
  sound := t.sound.adjust l _ fun _ => ⟨d, rfl⟩

def setData (t : FileTree) (l : Location) (data : ByteArray) : FileTree where
  top := t.top
  entries := t.entries.map (adjustEntry l (Entry.withData data))
  sound := t.sound.adjust l _ fun d => ⟨d, rfl⟩

def withDirs (t : FileTree) (above : Location) : Location → FileTree
  | [] => t
  | n :: rest =>
    let here := above ++ [n]
    withDirs (if t.isDir here then t else t.graft here (.dir .nothing)) here rest

/-- The tree with an entry and the directories above it. A directory put on a directory keeps its
contents. -/
def put (t : FileTree) (l : Location) (e : Entry) : FileTree :=
  let t := t.withDirs [] l.dropLast
  match e with
  | .dir d => if t.isDir l then t.setDeny l d else t.graft l e
  | _ => t.graft l e

end FileTree
end DeletionGuard
