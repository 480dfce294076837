import DeletionGuard.Proofs.Run.Clearing
import DeletionGuard.Proofs.Run.Loss
import Mathlib.Data.List.Induction

/-!
The effect of one removal on a world, exactly. It strips the world of what it clears and of nothing
else, and it succeeds just if its own place is cleared. A recursive removal goes through the entries
of a directory and stops at the first that is not cleared as a whole.
-/
namespace DeletionGuard
open FileTree

namespace FileTree
variable {t t' : FileTree} {l m : Location} {e : Entry} {P : Location → Prop}

theorem length_le_of_find? (h : t.find? l = some e) : l.length ≤ t.entries.length := by
  induction l using List.reverseRecOn generalizing t e with
  | nil => exact Nat.zero_le _
  | append_singleton l s ih =>
    have hne : l ++ [s] ≠ [] := by simp
    obtain ⟨deny, hdeny⟩ := isDir_iff.mp (isDir_of_find?_append h)
    have hstill : (t.erase (l ++ [s])).find? l = some (.dir deny) := by
      rw [find?_erase, if_neg, hdeny]
      rintro ⟨-, hbelow⟩
      have := hbelow.length_le
      simp only [List.length_append, List.length_singleton] at this
      omega
    have hless : (t.erase (l ++ [s])).entries.length < t.entries.length := by
      refine List.length_filter_lt_length_iff_exists.mpr ⟨_, (find?_eq_some_iff hne).mp h, ?_⟩
      simp [(below_iff _ _).mpr (List.prefix_refl (l ++ [s]))]
    have := ih hstill
    rw [List.length_append, List.length_singleton]
    omega

end FileTree

namespace World
variable {w w₁ w₂ : World} {t : FileTree} {l m : Location} {e : Entry} {P Q : Location → Prop}

/-- A world is another one without what lies at some places; nothing else has changed. -/
structure Stripped (w : World) (P : Location → Prop) (w' : World) : Prop where
  frame : w' = { w with tree := w'.tree }
  pruned : Pruned (lost w.tree w'.tree) w.tree w'.tree
  lost_iff : ∀ m, lost w.tree w'.tree m = true ↔ P m

namespace Stripped

theorem refl (hP : ∀ m, ¬P m) : w.Stripped P w where
  frame := rfl
  pruned := (Pruned.refl w.tree).lost
  lost_iff m := by
    constructor
    · intro h
      obtain ⟨⟨e, hfind⟩, hgone⟩ := FileTree.lost_iff.mp h
      rw [hfind] at hgone
      exact absurd hgone nofun
    · exact fun h => absurd h (hP m)

theorem congr (h : w.Stripped P w₁) (hPQ : ∀ m, P m ↔ Q m) : w.Stripped Q w₁ :=
  ⟨h.frame, h.pruned, fun m => (h.lost_iff m).trans (hPQ m)⟩

theorem occupied (h : w.Stripped P w₁) (hm : P m) : w.tree.Occupied m :=
  (FileTree.lost_iff.mp ((h.lost_iff m).mpr hm)).1

theorem gone (h : w.Stripped P w₁) (hm : P m) : w₁.tree.find? m = none :=
  (FileTree.lost_iff.mp ((h.lost_iff m).mpr hm)).2

theorem stays (h : w.Stripped P w₁) (hm : ¬P m) : w₁.tree.find? m = w.tree.find? m := by
  refine h.pruned.stays ?_
  rw [← Bool.not_eq_true, h.lost_iff]
  exact hm

theorem partOf (h : w.Stripped P w₁) : w₁.tree.PartOf w.tree :=
  h.pruned.partOf

theorem trans (h : w.Stripped P w₁) (h' : w₁.Stripped Q w₂) :
    w.Stripped (fun m => P m ∨ Q m) w₂ where
  frame := by
    rw [h'.frame, h.frame]
  pruned := (h.pruned.trans h'.pruned).lost
  lost_iff m := by
    rw [FileTree.lost_iff]
    constructor
    · rintro ⟨hocc, hgone⟩
      by_cases hm : P m
      · exact .inl hm
      · refine .inr ((h'.lost_iff m).mp (FileTree.lost_iff.mpr ⟨?_, hgone⟩))
        obtain ⟨e, hfind⟩ := hocc
        exact ⟨e, (h.stays hm).trans hfind⟩
    · rintro (hm | hm)
      · refine ⟨h.occupied hm, ?_⟩
        cases hfind : w₂.tree.find? m with
        | none => rfl
        | some e =>
          have := h'.partOf _ _ hfind
          rw [h.gone hm] at this
          exact absurd this nofun
      · exact ⟨h.partOf.occupied (h'.occupied hm), h'.gone hm⟩

theorem unique (h : w.Stripped P w₁) (h' : w.Stripped P w₂) : w₁ = w₂ := by
  have hlost : ∀ m, lost w.tree w₁.tree m = lost w.tree w₂.tree m := by
    intro m
    rw [Bool.eq_iff_iff, h.lost_iff, h'.lost_iff]
  have htree : w₁.tree = w₂.tree := by
    refine Pruned.unique h.pruned (h'.pruned.congr ?_ fun l e _ => hlost l)
    rw [hlost, h'.pruned.root]
  rw [h.frame, h'.frame, htree]

end Stripped

theorem stripped_without (hne : l ≠ []) :
    w.Stripped (fun m => l <+: m ∧ w.tree.Occupied m) (w.without l) where
  frame := rfl
  pruned := (pruned_erase w.tree l).lost
  lost_iff m := by
    rw [FileTree.lost_iff, without, find?_erase]
    constructor
    · rintro ⟨hocc, hgone⟩
      refine ⟨?_, hocc⟩
      split at hgone
      · rename_i hbelow
        exact hbelow.2
      · obtain ⟨e, hfind⟩ := hocc
        rw [hfind] at hgone
        exact absurd hgone nofun
    · rintro ⟨hbelow, hocc⟩
      refine ⟨hocc, if_pos ⟨?_, hbelow⟩⟩
      rintro rfl
      exact hne (List.prefix_nil.mp hbelow)

/-- An action at a place clears some places, and succeeds just if the place itself is one of
them. -/
structure Clears (w : World) (P : Location → Prop) (l : Location) (r : World × Option Failure) :
    Prop where
  stripped : w.Stripped P r.1
  success : r.2 = none ↔ P l

theorem clears_nothing {f : Failure} (hP : ∀ m, ¬P m) : w.Clears P l (w, some f) :=
  ⟨.refl hP, by simp [hP l]⟩

theorem attempt_clears {r : Except Failure World}
    (hok : ∀ w', r = .ok w' → w.Stripped P w' ∧ P l)
    (herror : (∀ w', r ≠ .ok w') → ∀ m, ¬P m) : w.Clears P l (w.attempt r) := by
  cases r with
  | ok w' =>
    obtain ⟨hstripped, hl⟩ := hok w' rfl
    exact ⟨hstripped, by simp [attempt, hl]⟩
  | error f => exact clears_nothing (herror fun _ h => nomatch h)

theorem removable_of_file (hfile : w.tree.isDir l = false) :
    w.tree.Removable l ↔ (w.tree.Occupied l → w.tree.Yields l) := by
  constructor
  · exact fun h hocc => (h l (List.prefix_refl l) hocc).yields
  · rintro h m hbelow ⟨e, hfind⟩
    obtain rfl := eq_of_below hbelow hfind hfile
    exact ⟨h ⟨e, hfind⟩, fun hdir => absurd (hfile.symm.trans hdir) nofun⟩

theorem not_cleared_of_file (hfile : w.tree.isDir l = false)
    (hl : ¬(w.tree.Yields l ∧ w.tree.Occupied l)) : ¬w.tree.Cleared l m := by
  intro h
  have hocc : w.tree.Occupied l := h.occupied.above h.isBelow
  cases h with
  | whole hremovable _ _ => exact hl ⟨(removable_of_file hfile).mp hremovable hocc, hocc⟩
  | part hlists _ _ _ =>
    obtain ⟨deny, hdeny, -⟩ := hlists.readable
    rw [isDir_iff.mpr ⟨deny, hdeny⟩] at hfile
    exact absurd hfile nofun

theorem isDir_of_partOf (hpart : w.tree.PartOf t) (hfile : t.isDir l = false) :
    w.tree.isDir l = false := by
  rw [← Bool.not_eq_true] at hfile ⊢
  exact fun hdir => hfile (hpart.isDir hdir)

theorem unlink_clears (hpart : w.tree.PartOf t) (hplace : t.Occupied l)
    (hfile : t.isDir l = false) :
    w.Clears (w.tree.Cleared l) l (w.attempt (w.unlink (Path.mk .single l).text)) := by
  have hfile' := isDir_of_partOf hpart hfile
  refine attempt_clears (fun w' h => ?_) fun h m => not_cleared_of_file hfile' ?_
  · obtain ⟨rfl, hyields, hocc, -⟩ := (unlink_eq_ok_iff hpart hplace).mp h
    have hremovable := (removable_of_file hfile').mpr fun _ => hyields
    refine ⟨?_, cleared_self.mpr ⟨hocc, hremovable⟩⟩
    exact (stripped_without hyields.ne).congr fun m => (cleared_of_removable hremovable).symm
  · rintro ⟨hyields, hocc⟩
    exact h _ ((unlink_eq_ok_iff hpart hplace).mpr ⟨rfl, hyields, hocc, hfile'⟩)

theorem discard_clears (hpart : w.tree.PartOf t) (hplace : t.Occupied l) :
    w.Clears (fun m => w.Accepts l ∧ l <+: m ∧ w.tree.Occupied m) l
      (w.attempt (w.discard (Path.mk .single l).text)) := by
  refine attempt_clears (fun w' h => ?_) fun h m => ?_
  · obtain ⟨rfl, haccepts, hocc⟩ := (discard_eq_ok_iff hpart hplace).mp h
    refine ⟨?_, haccepts, List.prefix_refl l, hocc⟩
    exact (stripped_without haccepts.ne).congr fun m => by simp [haccepts]
  · rintro ⟨haccepts, hbelow, hocc⟩
    exact h _ ((discard_eq_ok_iff hpart hplace).mpr ⟨rfl, haccepts, hocc.above hbelow⟩)

theorem Stripped.accepts_iff (h : w.Stripped P w₁) (hl : w₁.tree.Occupied l) :
    w₁.Accepts l ↔ w.Accepts l := by
  have hway : ∀ k, k <+: l → w₁.tree.find? k = w.tree.find? k := by
    intro k hk
    obtain ⟨e, hfind⟩ := hl.above hk
    rw [hfind, h.partOf _ _ hfind]
  have hopen := open_iff_of_partOf h.partOf hl
  have herror : w₁.trashError = w.trashError := by rw [h.frame]
  have htrash : w₁.trash = w.trash := by rw [h.frame]
  have htaken := w.trash.steady _ _ _ (Path.mk .single l).text hway
  constructor
  · rintro ⟨hworking, hne, hfits, hw, hnone⟩
    exact ⟨herror ▸ hworking, hne, hfits, hopen.mp hw, htaken ▸ htrash ▸ hnone⟩
  · rintro ⟨hworking, hne, hfits, hw, hnone⟩
    exact ⟨herror ▸ hworking, hne, hfits, hopen.mpr hw, by rw [htrash, htaken, hnone]⟩

theorem losable_belowSome {xs : List (String × Entry)}
    (hxs : ∀ x ∈ xs, w.tree.Removable (l ++ [x.1])) (h : w.Stripped (w.tree.BelowSome l xs) w₁) :
    Losable (lost w.tree w₁.tree) w.tree where
  closed hm hbelow hocc := by
    obtain ⟨x, hx, hxm, -⟩ := (h.lost_iff _).mp hm
    exact (h.lost_iff _).mpr ⟨x, hx, hxm.trans hbelow, hocc⟩
  takes hm hocc := by
    obtain ⟨x, hx, hxm, -⟩ := (h.lost_iff _).mp hm
    exact hxs x hx _ hxm hocc

theorem Stripped.clear (h : w.Stripped P w₁) (hP : Losable (lost w.tree w₁.tree) w.tree)
    (h' : w₁.Stripped (w₁.tree.Cleared l) w₂) :
    w.Stripped (fun m => P m ∨ w.tree.Cleared l m) w₂ := by
  refine (h.trans h').congr fun m => ?_
  rw [h.pruned.cleared_iff hP, ← Bool.not_eq_true, h.lost_iff]
  by_cases hm : P m <;> simp [hm]

theorem not_lost_next {front rest : List (String × Entry)} {x : String × Entry}
    (hchildren : w.tree.children l = front ++ x :: rest)
    (hw : w.Stripped (w.tree.BelowSome l front) w₁) :
    lost w.tree w₁.tree (l ++ [x.1]) = false := by
  rw [← Bool.not_eq_true, hw.lost_iff]
  rintro ⟨y, hy, hyx, -⟩
  have hname : y.1 = x.1 := by simpa using hyx.eq_of_length (by simp)
  have hnodup := nodup_children w.tree l
  rw [hchildren, List.map_append, List.map_cons] at hnodup
  exact (List.nodup_append.mp hnodup).2.2 _ (List.mem_map_of_mem hy) _ List.mem_cons_self hname

theorem stripped_belowSome_append {front : List (String × Entry)} {x : String × Entry}
    (hx : w.tree.Removable (l ++ [x.1]))
    (h : w.Stripped (fun m => w.tree.BelowSome l front m ∨ w.tree.Cleared (l ++ [x.1]) m) w₁) :
    w.Stripped (w.tree.BelowSome l (front ++ [x])) w₁ := by
  refine h.congr fun m => ?_
  rw [cleared_of_removable hx]
  simp [BelowSome, or_and_right, exists_or]

theorem inTurn_clears {act : World → String × Entry → World × Option Failure}
    {front rest : List (String × Entry)} (hchildren : w.tree.children l = front ++ rest)
    (hact : ∀ x ∈ rest, ∀ w₁ : World, w₁.tree.PartOf w.tree →
      w₁.Clears (w₁.tree.Cleared (l ++ [x.1])) (l ++ [x.1]) (act w₁ x))
    (hfront : ∀ x ∈ front, w.tree.Removable (l ++ [x.1]))
    (hw : w.Stripped (w.tree.BelowSome l front) w₁) :
    ((w₁.inTurn act rest).2 = none ∧ (∀ x ∈ rest, w.tree.Removable (l ++ [x.1])) ∧
      w.Stripped (w.tree.BelowSome l (w.tree.children l)) (w₁.inTurn act rest).1) ∨
    ((w₁.inTurn act rest).2 ≠ none ∧ ∃ mid c back, w.tree.children l = mid ++ c :: back ∧
      (∀ x ∈ mid, w.tree.Removable (l ++ [x.1])) ∧ ¬w.tree.Removable (l ++ [c.1]) ∧
      w.Stripped (fun m => w.tree.BelowSome l mid m ∨ w.tree.Cleared (l ++ [c.1]) m)
        (w₁.inTurn act rest).1) := by
  induction rest generalizing front w₁ with
  | nil =>
    rw [List.append_nil] at hchildren
    exact .inl ⟨rfl, fun x hx => absurd hx List.not_mem_nil, hchildren ▸ hw⟩
  | cons x rest ih =>
    have hx : w.tree.Occupied (l ++ [x.1]) := occupied_child (by simp [hchildren])
    have hlosable := losable_belowSome hfront hw
    obtain ⟨hstripped, hsuccess⟩ := hact x List.mem_cons_self w₁ hw.partOf
    have hclear := hw.clear hlosable hstripped
    rw [inTurn]
    cases hr : act w₁ x with
    | mk w₂ failure =>
    rw [hr] at hclear hsuccess
    cases failure with
    | none =>
      obtain ⟨hcleared, -⟩ := (hw.pruned.cleared_iff hlosable).mp (hsuccess.mp rfl)
      have hremovable := (cleared_self.mp hcleared).2
      have hfront' : ∀ y ∈ front ++ [x], w.tree.Removable (l ++ [y.1]) :=
        List.forall_mem_append.mpr ⟨hfront, List.forall_mem_singleton.mpr hremovable⟩
      have hw' := stripped_belowSome_append hremovable hclear
      have hact' : ∀ y ∈ rest, ∀ w₁ : World, w₁.tree.PartOf w.tree →
          w₁.Clears (w₁.tree.Cleared (l ++ [y.1])) (l ++ [y.1]) (act w₁ y) :=
        fun y hy => hact y (List.mem_cons_of_mem x hy)
      obtain ⟨hnone, hrest, hstrip⟩ | hstuck :=
        ih (hchildren.trans (List.append_cons front x rest)) hact' hfront' hw'
      · exact .inl ⟨hnone, List.forall_mem_cons.mpr ⟨hremovable, hrest⟩, hstrip⟩
      · exact .inr hstuck
    | some f =>
      refine .inr ⟨Option.some_ne_none f, front, x, rest, hchildren, hfront,
        fun hremovable => ?_, hclear⟩
      have hstill := not_lost_next hchildren hw
      have hself := cleared_self.mpr ⟨hx, hremovable⟩
      exact Option.some_ne_none f
        (hsuccess.mpr ((hw.pruned.cleared_iff hlosable).mpr ⟨hself, hstill⟩))

theorem emptied (hfind : w.tree.find? l = some e)
    (h : w.Stripped (w.tree.BelowSome l (w.tree.children l)) w₁) :
    w₁.tree.find? l = some e ∧ w₁.tree.children l = [] := by
  constructor
  · refine (h.stays ?_).trans hfind
    rintro ⟨x, -, hbelow, -⟩
    have := hbelow.length_le
    rw [List.length_append, List.length_singleton] at this
    omega
  · rw [h.pruned.children]
    refine List.filter_eq_nil_iff.mpr fun x hx => ?_
    have hlost := (h.lost_iff _).mpr ⟨x, hx, List.prefix_refl _, occupied_child hx⟩
    simp [hlost]

theorem rmdir_clears (hpart : w.tree.PartOf t) (hdir : t.isDir l = true) (hlists : w.tree.Lists l)
    (hall : ∀ x ∈ w.tree.children l, w.tree.Removable (l ++ [x.1]))
    (h : w.Stripped (w.tree.BelowSome l (w.tree.children l)) w₁) :
    w.Clears (w.tree.Cleared l) l (w₁.attempt (w₁.rmdir (Path.mk .single l).text)) := by
  have hplace : t.Occupied l := occupied_of_isDir hdir
  obtain ⟨deny, hdeny, -⟩ := id hlists.readable
  obtain ⟨hstill, hempty⟩ := emptied hdeny h
  have hremovable := removable_of_children hlists hall
  have hyields : w₁.tree.Yields l ↔ w.tree.Yields l := yields_iff_of_partOf h.partOf ⟨_, hstill⟩
  cases hr : w₁.rmdir (Path.mk .single l).text with
  | ok w₂ =>
    obtain ⟨rfl, hy, -, -⟩ := (rmdir_eq_ok_iff (h.partOf.trans hpart) hplace).mp hr
    have hl := hremovable.mpr (hyields.mp hy)
    refine ⟨?_, by simp [attempt, cleared_self.mpr ⟨⟨_, hdeny⟩, hl⟩]⟩
    refine (h.trans (stripped_without hy.ne)).congr fun m => ?_
    rw [cleared_of_removable hl, h.pruned.occupied_iff, ← Bool.not_eq_true, h.lost_iff]
    by_cases hm : w.tree.BelowSome l (w.tree.children l) m
    · obtain ⟨x, hx, hbelow, hocc⟩ := id hm
      simp [hm, (List.prefix_append l [x.1]).trans hbelow, hocc]
    · simp [hm]
  | error f =>
    have hl : ¬w.tree.Removable l := by
      intro hl
      have hy := hyields.mpr (hremovable.mp hl)
      have hok := (rmdir_eq_ok_iff (h.partOf.trans hpart) hplace).mpr
        ⟨rfl, hy, isDir_iff.mpr ⟨deny, hstill⟩, hempty⟩
      rw [hr] at hok
      exact absurd hok nofun
    refine ⟨h.congr fun m => (cleared_of_kept hlists hall hl).symm, ?_⟩
    simp [attempt, cleared_self, hl]

theorem not_cleared_of_unlisted (hpart : w.tree.PartOf t) (hdir : t.isDir l = true)
    (hlists : ¬w.tree.Lists l) : ¬w.tree.Cleared l m := by
  intro h
  obtain ⟨e, hfind⟩ := h.occupied.above h.isBelow
  obtain ⟨deny, hdeny⟩ := isDir_iff.mp hdir
  rw [hpart _ _ hfind] at hdeny
  cases hdeny
  cases h with
  | whole hl _ _ =>
    exact hlists ((hl l (List.prefix_refl l) ⟨_, hfind⟩).lists (isDir_iff.mpr ⟨deny, hfind⟩))
  | part hlists' _ _ _ => exact hlists hlists'

/-- A directory is removed with all it holds, up to what cannot be taken away. The bound on the
depth is not met. -/
theorem removeNested_clears {n : Nat} (hpart : w.tree.PartOf t) (hdir : t.isDir l = true)
    (hdeep : ∀ m, l <+: m → w.tree.isDir m = true → m.length < l.length + n) :
    w.Clears (w.tree.Cleared l) l (removeNested n w ⟨.single, l⟩) := by
  induction n generalizing w l with
  | zero =>
    refine clears_nothing fun m => not_cleared_of_unlisted hpart hdir fun hlists => ?_
    obtain ⟨deny, hdeny, -⟩ := hlists.readable
    have := hdeep l (List.prefix_refl l) (isDir_iff.mpr ⟨deny, hdeny⟩)
    omega
  | succ n ih =>
    rw [removeNested]
    by_cases hlists : w.tree.Lists l
    · rw [(list_eq_ok_iff hpart (solid_of_isDir hdir)).mpr ⟨rfl, hlists⟩]
      dsimp only
      have hact : ∀ x ∈ w.tree.children l, ∀ w₁ : World, w₁.tree.PartOf w.tree →
          w₁.Clears (w₁.tree.Cleared (l ++ [x.1])) (l ++ [x.1])
            (if x.2.isDir then removeNested n w₁ ((Path.mk .single l).child x.1)
              else w₁.attempt (w₁.unlink ((Path.mk .single l).child x.1).text)) := by
        intro x hx w₁ hpart'
        have hfind := hpart _ _ (mem_children.mp hx)
        have hkind : t.isDir (l ++ [x.1]) = x.2.isDir := by
          rw [FileTree.isDir, hfind, Option.any_some]
        split
        · rename_i hdir'
          refine ih (hpart'.trans hpart) (hkind.trans hdir') fun m hbelow hm => ?_
          have := hdeep m ((List.prefix_append l _).trans hbelow) (hpart'.isDir hm)
          rw [List.length_append, List.length_singleton]
          omega
        · rename_i hfile
          exact unlink_clears (hpart'.trans hpart) ⟨x.2, hfind⟩ (hkind.trans (by simpa using hfile))
      have hstart : w.Stripped (w.tree.BelowSome l []) w := by
        refine .refl fun m hm => ?_
        obtain ⟨x, hx, -⟩ := hm
        exact absurd hx List.not_mem_nil
      have hturn := inTurn_clears rfl hact (fun x hx => absurd hx List.not_mem_nil) hstart
      revert hturn
      generalize w.inTurn _ (w.tree.children l) = r
      obtain ⟨w₁, failure⟩ := r
      rintro (⟨rfl, hall, hstripped⟩ | ⟨hsome, mid, c, back, hsplit, hmid, hc, hstripped⟩)
      · exact rmdir_clears hpart hdir hlists hall hstripped
      · obtain ⟨f, rfl⟩ := Option.ne_none_iff_exists'.mp hsome
        have hl : ¬w.tree.Removable l := fun hl => hc (hl.below (List.prefix_append _ _))
        refine ⟨hstripped.congr fun m => (cleared_of_stuck hlists hsplit hmid hc).symm, ?_⟩
        simp [cleared_self, hl]
    · cases hlist : w.list (Path.mk .single l).text with
      | ok entries =>
        exact absurd ((list_eq_ok_iff hpart (solid_of_isDir hdir)).mp hlist).2 hlists
      | error f => exact clears_nothing fun m => not_cleared_of_unlisted hpart hdir hlists

theorem removeTree_clears (hpart : w.tree.PartOf t) (hdir : t.isDir l = true) :
    w.Clears (w.tree.Cleared l) l (w.removeTree ⟨.single, l⟩) := by
  have hplace : t.Occupied l := occupied_of_isDir hdir
  unfold removeTree
  split
  · rename_i target hseen
    obtain ⟨m, hm, hfind⟩ := entryAt_eq_ok.mp hseen
    obtain ⟨rfl, -⟩ := (locate_keep_iff hpart hplace).mp hm
    obtain ⟨deny, hdeny⟩ := isDir_iff.mp hdir
    rw [hpart _ _ hfind] at hdeny
    exact absurd hdeny nofun
  · refine removeNested_clears hpart hdir fun m _ hm => ?_
    obtain ⟨deny, hdeny⟩ := isDir_iff.mp hm
    have := length_le_of_find? hdeny
    omega

end World
end DeletionGuard
