import DeletionGuard.Proofs.FileTree.Growth
import DeletionGuard.Proofs.Path.Place

/-!
Calls that make something, by what they find at the end of their path. What is made is found by the
same path at once. Behind a directory with nothing of a name in it, the name leads to nothing.
-/
namespace DeletionGuard.World
open FileTree
variable {w w' w'' : World} {ending : Ending} {l d start : Location} {text s : String} {q : Path}
  {e : Entry} {data : ByteArray}

theorem solid_or_vacant_of_locate (h : w.locate .create text = .ok l) :
    w.tree.Solid l ∨ w.tree.Vacant l := by
  obtain ⟨-, start, hstart, hwalk⟩ := locate_eq_ok_iff.mp h
  exact solid_or_vacant_of_walk (solid_of_startOf hstart) (fun _ => Route.name_of_mem_steps) hwalk

theorem startOf_of_partOf (hpart : w.tree.PartOf w'.tree) (hcwd : w'.cwd = w.cwd)
    (h : w.startOf text = .ok start) : w'.startOf text = .ok start := by
  have hsolid := solid_of_startOf h
  unfold startOf at h ⊢
  split
  · rename_i habs
    rwa [if_pos habs] at h
  · rename_i habs
    rw [if_neg habs, cwdLocation, ← hcwd] at h
    obtain ⟨e, hfind, hplain⟩ := hsolid
    exact walk_of_partOf hpart (by decide : Ending.follow ≠ .keep) ⟨e, hpart _ _ hfind, hplain⟩ h

theorem locate_of_partOf (hpart : w.tree.PartOf w'.tree) (hcwd : w'.cwd = w.cwd)
    (hending : ending ≠ .keep) (hmade : w'.tree.Solid l) (h : w.locate ending text = .ok l) :
    w'.locate .follow text = .ok l := by
  obtain ⟨htext, start, hstart, hwalk⟩ := locate_eq_ok_iff.mp h
  exact locate_eq_ok_iff.mpr
    ⟨htext, start, startOf_of_partOf hpart hcwd hstart, walk_of_partOf hpart hending hmade hwalk⟩

theorem stat_of_partOf (hpart : w.tree.PartOf w'.tree) (hcwd : w'.cwd = w.cwd)
    (hmade : w'.tree.find? l = some e) (hplain : e.isLink = false)
    (h : w.locate .create text = .ok l) : w'.stat text = .ok e :=
  entryAt_eq_ok.mpr ⟨l, locate_of_partOf hpart hcwd (by decide : Ending.create ≠ .keep)
    ⟨e, hmade, hplain⟩ h, hmade⟩

/-- A world is another one with some more directories. -/
structure Grows (w w' : World) : Prop where
  tree : Grown w.tree w'.tree
  rest : w' = { w with tree := w'.tree }

theorem Grows.refl (w : World) : Grows w w :=
  ⟨.refl w.tree, rfl⟩

theorem Grows.trans (h : Grows w w') (h' : Grows w' w'') : Grows w w'' where
  tree := h.tree.trans h'.tree
  rest := by
    rw [h'.rest, h.rest]

theorem mkdir_eq_ok (h : w.mkdir text = .ok w') : ∃ l, w.locate .create text = .ok l ∧
    w.tree.Vacant l ∧ w' = { w with tree := w.tree.graft l (.dir .nothing) } := by
  unfold mkdir at h
  split at h
  · exact absurd h nofun
  · obtain ⟨l, hl, h⟩ := bind_eq_ok.mp h
    obtain ⟨e, hfind, -⟩ | hvacant := solid_or_vacant_of_locate hl
    · simp [hfind] at h
    · split at h
      · exact absurd h nofun
      · split at h
        · exact absurd h nofun
        · exact ⟨l, hl, hvacant, (Except.ok.inj h).symm⟩

theorem mkdir_grows (h : w.mkdir text = .ok w') : Grows w w' := by
  obtain ⟨l, -, hvacant, rfl⟩ := mkdir_eq_ok h
  exact ⟨hvacant.grown, rfl⟩

/-- What lies at a place after a whole file was written there. -/
inductive Lands (w : World) (l : Location) (data : ByteArray) : Entry → Prop where
  /-- An entry that was there holds the data now, if it can hold any. -/
  | into {e : Entry} (hfind : w.tree.find? l = some e) (hplain : e.isLink = false)
    (hfile : e.isDir = false) : Lands w l data (e.withData data)
  | new (hvacant : w.tree.Vacant l) : Lands w l data (.file data .nothing)

theorem write_eq_ok (h : w.write text data = .ok w') : ∃ l e, w.locate .create text = .ok l ∧
    w.Lands l data e ∧ w'.cwd = w.cwd ∧
    ∀ m, w'.tree.find? m = if m = l then some e else w.tree.find? m := by
  obtain ⟨l, hl, h⟩ := bind_eq_ok.mp h
  obtain ⟨e, hfind, hplain⟩ | hvacant := solid_or_vacant_of_locate hl
  · have hdata (m : Location) : (w.tree.setData l data).find? m =
        if m = l then some (e.withData data) else w.tree.find? m := by
      rw [find?_setData]
      split
      · rename_i hm
        rw [hm, hfind]
        rfl
      · rfl
    cases e with
    | dir deny => simp [hfind] at h
    | link target => exact absurd hplain nofun
    | file | fifo =>
      simp only [hfind] at h
      split at h
      · exact absurd h nofun
      · obtain rfl := Except.ok.inj h
        exact ⟨l, _, hl, .into hfind rfl rfl, rfl, hdata⟩
  · simp only [hvacant.free] at h
    split at h
    · exact absurd h nofun
    · obtain rfl := Except.ok.inj h
      exact ⟨l, _, hl, .new hvacant, rfl, hvacant.find?_graft _⟩

theorem absolute_text (hq : q.Proper) : (Route.ofString q.text).absolute = q.isAbsolute :=
  Bool.eq_iff_iff.mpr (Path.startsWith_text_iff hq)

theorem walk_parts_of_locate (hq : q.Proper) (h : w.locate .follow q.text = .ok l) :
    ∃ start flag, w.startOf q.text = .ok start ∧
      w.tree.walk .follow maxLinks start q.parts flag = .ok l := by
  obtain ⟨-, start, hstart, hwalk⟩ := locate_eq_ok_iff.mp h
  by_cases hnil : q.parts = []
  · cases habs : q.isAbsolute with
    | true =>
      rw [Path.route_text hq habs] at hwalk
      exact ⟨start, _, hstart, hwalk⟩
    | false =>
      have hdot : q.text = "." := by
        rw [Path.text, if_pos ⟨by simpa [Path.isAbsolute] using habs, hnil⟩]
      rw [hdot, show Route.ofString "." = ⟨false, ["."], false⟩ by decide, walk_cons] at hwalk
      refine ⟨start, false, hstart, ?_⟩
      rw [hnil, walk_nil]
      cases hturn : w.tree.turn start "." with
      | error x => simp [hturn] at hwalk
      | ok x =>
        have hx : x = .onto start := by
          unfold turn at hturn
          grind
        rw [hturn, hx] at hwalk
        simpa using hwalk
  · rw [Path.route_text_of_ne_nil hq hnil] at hwalk
    exact ⟨start, _, hstart, hwalk⟩

theorem locate_child (hs : (q.child s).Proper) (hup : s ≠ "..")
    (hparent : w.locate .follow q.text = .ok d) (hfree : w.tree.find? (d ++ [s]) = none)
    (h : w.locate ending (q.child s).text = .ok l) : ending = .create ∧ l = d ++ [s] := by
  have hq : q.Proper := fun n hn => hs n (List.mem_append_left _ hn)
  have hdot : s ≠ "." := (Path.isPart_iff.mp (hs s (by simp)).1).2
  obtain ⟨start, flag, hstart, hwalk⟩ := walk_parts_of_locate hq hparent
  obtain ⟨-, start', hstart', hwalk'⟩ := locate_eq_ok_iff.mp h
  have hsame : start' = start := by
    have habs : (q.child s).isAbsolute = q.isAbsolute := rfl
    rw [startOf, absolute_text hs, habs, ← absolute_text hq] at hstart'
    exact Except.ok.inj (hstart'.symm.trans hstart)
  rw [Path.route_text_of_ne_nil hs (by simp), hsame, Path.parts_child] at hwalk'
  obtain ⟨j, hj, happend⟩ := exists_walk_append hwalk
  rw [← Nat.add_sub_cancel' hj, (happend ending [s] false (by simp)).1, walk_cons] at hwalk'
  cases hturn : w.tree.turn d s with
  | error x => simp [hturn] at hwalk'
  | ok x =>
    rw [hturn] at hwalk'
    cases x with
    | onto m =>
      obtain ⟨h, -⟩ | ⟨h, -⟩ | ⟨-, -, rfl, e, hfind, -⟩ := turn_onto hturn
      · exact absurd h hdot
      · exact absurd h hup
      · rw [hfree] at hfind
        exact absurd hfind nofun
    | free m =>
      obtain ⟨rfl, -⟩ := turn_free hturn
      by_cases hcreate : ending = .create
      · exact ⟨hcreate, by simpa [hcreate] using hwalk'.symm⟩
      · simp [hcreate] at hwalk'
    | link m target =>
      obtain ⟨-, -, rfl, hfind⟩ := turn_link hturn
      rw [hfree] at hfind
      exact absurd hfind nofun

end DeletionGuard.World
