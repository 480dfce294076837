import DeletionGuard.Proofs.FileTree.Reach
import DeletionGuard.Proofs.Text.Cut

/-!
Trees to which entries were added. An entry is made where nothing lies yet and a directory can hold
it. A walk that came to an end takes the same turns in the larger tree, so it comes to the same end;
one that ended at a free name finds there what was made.
-/
namespace DeletionGuard

theorem Route.name_of_mem_steps {text s : String} (hs : s ∈ (Route.ofString text).steps) :
    s ≠ "" ∧ '/' ∉ s.toList := by
  obtain ⟨hmem, hne⟩ := List.mem_filter.mp hs
  exact ⟨by simpa using hne, Text.not_mem_of_mem_cut hmem⟩

namespace FileTree
variable {t t' t'' : FileTree} {ending : Ending} {n : Nat} {here l m : Location} {s : String}
  {steps : List String} {slashed : Bool} {e : Entry}

/-- Nothing lies at a place, but an entry can be made there. -/
structure Vacant (t : FileTree) (l : Location) : Prop where
  ne : l ≠ []
  free : t.find? l = none
  names : ∀ n ∈ l, IsName n
  held : t.isDir l.dropLast = true

theorem find?_below_of_free (hfree : t.find? l = none) (hbelow : l <+: m) : t.find? m = none := by
  by_cases hne : l = m
  · exact hne ▸ hfree
  · cases hfind : t.find? m with
    | none => rfl
    | some e =>
      obtain ⟨deny, hdir⟩ := isDir_iff.mp (isDir_of_below hbelow hne hfind)
      rw [hfree] at hdir
      exact absurd hdir nofun

theorem Vacant.find?_graft (h : t.Vacant l) (e : Entry) (m : Location) :
    (t.graft l e).find? m = if m = l then some e else t.find? m := by
  by_cases hml : m = l
  · rw [hml, if_pos rfl, find?_graft_self h.ne h.names h.held]
  · rw [if_neg hml]
    by_cases hbelow : l <+: m
    · have hm : m ≠ [] := by
        rintro rfl
        exact h.ne (List.prefix_nil.mp hbelow)
      rw [find?_below_of_free h.free hbelow]
      cases hfind : (t.graft l e).find? m with
      | none => rfl
      | some e' =>
        rw [find?_eq_some_iff hm, graft, dif_pos ⟨h.ne, h.names, h.held⟩] at hfind
        obtain hmem | hmem := List.mem_append.mp hfind
        · have hkept := (List.mem_filter.mp hmem).2
          rw [(below_iff l m).mpr hbelow] at hkept
          exact absurd hkept Bool.false_ne_true
        · exact absurd (congrArg Prod.fst (List.mem_singleton.mp hmem)) hml
    · exact find?_graft_of_not_below hbelow e

theorem Vacant.partOf_graft (h : t.Vacant l) (e : Entry) : t.PartOf (t.graft l e) := by
  intro m e' hfind
  rw [h.find?_graft, if_neg, hfind]
  rintro rfl
  rw [h.free] at hfind
  exact absurd hfind nofun

/-- A tree is another one with some more directories, which refuse nothing. -/
structure Grown (t t' : FileTree) : Prop where
  kept : t.PartOf t'
  added : ∀ l e, t'.find? l = some e → t.find? l = some e ∨ e = .dir .nothing

theorem Grown.refl (t : FileTree) : Grown t t :=
  ⟨PartOf.refl t, fun _ _ h => .inl h⟩

theorem Grown.trans (h : Grown t t') (h' : Grown t' t'') : Grown t t'' where
  kept := h.kept.trans h'.kept
  added l e hfind := by
    obtain hold | hnew := h'.added l e hfind
    · exact h.added l e hold
    · exact .inr hnew

theorem Vacant.grown (h : t.Vacant l) : Grown t (t.graft l (.dir .nothing)) where
  kept := h.partOf_graft _
  added m e hfind := by
    rw [h.find?_graft] at hfind
    split at hfind
    · exact .inr (Option.some.inj hfind).symm
    · exact .inl hfind

theorem lookup_adjustEntry (f : Entry → Entry) (entries : List (Location × Entry)) :
    (entries.map (adjustEntry l f)).lookup m =
      if m = l then (entries.lookup m).map f else entries.lookup m := by
  induction entries with
  | nil => simp
  | cons x entries ih =>
    have hfst : (adjustEntry l f x).1 = x.1 := by
      unfold adjustEntry
      split <;> rfl
    rw [List.map_cons, List.lookup_cons, List.lookup_cons, hfst, ih]
    cases hmx : m == x.1 with
    | false => rfl
    | true =>
      obtain rfl := beq_iff_eq.mp hmx
      unfold adjustEntry
      simp only
      split <;> rfl

theorem find?_setData (t : FileTree) (l : Location) (data : ByteArray) (m : Location) :
    (t.setData l data).find? m =
      if m = l then (t.find? m).map (Entry.withData data) else t.find? m := by
  by_cases hm : m = []
  · subst hm
    rw [find?_nil, find?_nil]
    split <;> rfl
  · rw [find?, find?, if_neg hm, if_neg hm]
    exact lookup_adjustEntry _ _

theorem name_of_turn_free (h : t.turn here s = .ok (.free l)) : s ≠ "." ∧ s ≠ ".." := by
  unfold turn at h
  grind

theorem solid_or_vacant_of_walk (hhere : t.Solid here)
    (hsteps : ∀ s ∈ steps, s ≠ "" ∧ '/' ∉ s.toList)
    (h : t.walk .create n here steps slashed = .ok l) : t.Solid l ∨ t.Vacant l := by
  induction n, here, steps using walk_induction generalizing slashed with
  | nil n here =>
    rw [walk_nil] at h
    split at h
    · exact absurd h nofun
    · exact .inl (Except.ok.inj h ▸ hhere)
  | cons n here s rest ihrest ihn =>
    have hrest : ∀ s ∈ rest, s ≠ "" ∧ '/' ∉ s.toList :=
      fun s hs => hsteps s (List.mem_cons_of_mem _ hs)
    rw [walk_cons] at h
    cases hturn : t.turn here s with
    | error x => simp [hturn] at h
    | ok x =>
      rw [hturn] at h
      cases x with
      | onto m => exact ihrest m (solid_of_turn hhere hturn) hrest h
      | free m =>
        simp only at h
        split at h
        · obtain rfl := Except.ok.inj h
          obtain ⟨rfl, hfree⟩ := turn_free hturn
          obtain ⟨hdot, hup⟩ := name_of_turn_free hturn
          obtain ⟨hne, hslash⟩ := hsteps s List.mem_cons_self
          refine .inr ⟨by simp, hfree, fun n hn => ?_, by simpa using isDir_of_turn hturn⟩
          obtain hn | hn := List.mem_append.mp hn
          · exact hhere.names n hn
          · exact List.mem_singleton.mp hn ▸ ⟨hne, hdot, hup, hslash⟩
        · exact absurd h nofun
      | link m target =>
        simp only [reduceCtorEq, decide_false, Bool.and_false, Bool.false_eq_true, if_false] at h
        split at h
        · exact absurd h nofun
        · cases n with
          | zero => exact absurd h nofun
          | succ k =>
            refine ihn k rfl _ _ (solid_landing hhere target) (fun s hs => ?_) h
            obtain hs | hs := List.mem_append.mp hs
            · exact Route.name_of_mem_steps hs
            · exact hrest s hs

theorem turn_of_partOf (hpart : t.PartOf t') {x : Turn} (h : t.turn here s = .ok x)
    (hx : ∀ m, x ≠ .free m) : t'.turn here s = .ok x := by
  obtain ⟨deny, hdir⟩ := isDir_iff.mp (isDir_of_turn h)
  unfold turn at h ⊢
  rw [hpart _ _ hdir]
  rw [hdir] at h
  cases hfind : t.find? (here ++ [s]) with
  | none => grind
  | some e => grind [hpart _ _ hfind]

theorem turn_of_made (hpart : t.PartOf t') (h : t.turn here s = .ok (.free l))
    (hmade : t'.Solid l) : t'.turn here s = .ok (.onto l) := by
  obtain ⟨deny, hdir⟩ := isDir_iff.mp (isDir_of_turn h)
  obtain ⟨e, hfind, hplain⟩ := hmade
  obtain ⟨rfl, -⟩ := turn_free h
  unfold turn at h ⊢
  rw [hpart _ _ hdir]
  rw [hdir] at h
  cases e <;> grind [Entry.isLink]

theorem walk_of_partOf (hpart : t.PartOf t') (hending : ending ≠ .keep) (hmade : t'.Solid l)
    (h : t.walk ending n here steps slashed = .ok l) :
    t'.walk .follow n here steps slashed = .ok l := by
  induction n, here, steps using walk_induction generalizing slashed with
  | nil n here =>
    rw [walk_nil] at h ⊢
    split at h
    · exact absurd h nofun
    · rename_i hdir
      cases slashed with
      | false => exact h
      | true =>
        rw [hpart.isDir (by simpa using hdir : t.isDir here = true)]
        exact h
  | cons n here s rest ihrest ihn =>
    rw [walk_cons] at h ⊢
    cases hturn : t.turn here s with
    | error x => simp [hturn] at h
    | ok x =>
      rw [hturn] at h
      cases x with
      | onto m =>
        rw [turn_of_partOf hpart hturn nofun]
        exact ihrest m h
      | free m =>
        simp only at h
        split at h
        · rename_i hlast
          obtain rfl := Except.ok.inj h
          simp only [Bool.and_eq_true, List.isEmpty_iff, Bool.not_eq_true'] at hlast
          obtain ⟨⟨-, rfl⟩, rfl⟩ := hlast
          rw [turn_of_made hpart hturn hmade]
          exact walk_nil
        · exact absurd h nofun
      | link m target =>
        rw [turn_of_partOf hpart hturn nofun]
        simp only [hending, reduceCtorEq, decide_false, Bool.and_false, Bool.false_eq_true,
          if_false] at h ⊢
        split at h
        · exact absurd h nofun
        · rename_i hempty
          rw [if_neg hempty]
          cases n with
          | zero => exact absurd h nofun
          | succ k => exact ihn k rfl _ _ h

end FileTree
end DeletionGuard
